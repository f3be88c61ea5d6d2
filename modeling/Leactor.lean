import Leactor.Pool.Twins
import Leactor.Pool.Destroy
import Leactor.Pool.Blocks
import Leactor.Http.ResponseForward
import Leactor.Http.RequestForward
import Leactor.Http.UpstreamRun
import Leactor.Http.ResponsePlace
import Leactor.Http.ResponseStream
import Leactor.Http.Segments
import Leactor.Http.StatusRecord
import Leactor.Http.Head
import Leactor.Http.HostName
import Leactor.Http.HostHeader
import Leactor.Http.Recycler
import Leactor.Http.Chains
import Leactor.Http.Pipeline
import Leactor.Parse.RequestGrammar
import Leactor.Parse.HeaderRing
import Leactor.Parse.Pieces
import Leactor.Parse.Tables
import Leactor.Net.ChainWalk
import Leactor.Net.SendBuffers
import Leactor.Http.Slices
import Leactor.Http.HeaderList
import Leactor.Net.Recv
import Leactor.Event.TimerSync
import Leactor.Event.HeapSlots
import Leactor.Event.FreeList
import Leactor.Event.Expiry
import Leactor.Event.BaseLoop
import Leactor.Event.Silence
import Leactor.Http.ResidueLines
import Leactor.Http.Guarantees
import Leactor.Http.Transparent
import Leactor.Http.MainLoop
import Leactor.Http.UriSlice
