import Leactor.Parse.UriMarks
import Leactor.Http.Slices

/-! The slice that a request's chain has for the URI, by the text of the request line. -/
namespace Leactor

open Ascii Memory

theorem requestIovecs_uri (r : RequestT) (fields : List (LtString × LtString)) :
    (requestIovecs r fields)[1]? = some (r.uri.widen 1) := rfl

end Leactor
