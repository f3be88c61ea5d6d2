import Leactor.Parse.RequestSpec
import Leactor.Parse.StatusText

/-! The numbers of a version: when the parsers store the values of the digits, and
when `http_version` tells two of them apart. -/
namespace Leactor

open Ascii Scan Memory

def placeValue (n : Int) (w : List UInt8) : Int := w.foldl (fun n c => n * 10 + digitValue c) n

def InInt (x : Int) : Prop := -2 ^ 31 ≤ x ∧ x < 2 ^ 31

/-- No digit overflows `number * 10 + ch - '0'`, which is evaluated from left to right. -/
def AccumulatesInInt : Int → List UInt8 → Prop
  | _, [] => True
  | n, c :: w => InInt (n * 10) ∧ InInt (n * 10 + c.toNat) ∧ InInt (n * 10 + c.toNat - 48) ∧
      AccumulatesInInt (wrap32 (n * 10 + digitValue c)) w

theorem le_placeValue {n : Int} {w : List UInt8} (hn : 0 ≤ n) (hDigits : ∀ c ∈ w, IsDigit c) :
    n ≤ placeValue n w := by
  induction w generalizing n with
  | nil => exact Int.le_refl n
  | cons c w ih =>
      rw [List.forall_mem_cons] at hDigits
      have hc := digitValue_bounds c hDigits.1
      have hRest := ih (n := n * 10 + digitValue c) (by omega) hDigits.2
      rw [placeValue, List.foldl_cons]
      exact Int.le_trans (by omega) hRest

/-- A row of digits is read without an overflow, and to its value, exactly if the
character code of a digit still fits on top of the value. -/
theorem decimal_exact_iff {n : Int} {w : List UInt8} (hn : 0 ≤ n) (hFits : n + 48 < 2 ^ 31)
    (hDigits : ∀ c ∈ w, IsDigit c) :
    AccumulatesInInt n w ∧ decimal n w = placeValue n w ↔ placeValue n w + 48 < 2 ^ 31 := by
  induction w generalizing n with
  | nil => exact ⟨fun _ => hFits, fun _ => ⟨trivial, rfl⟩⟩
  | cons c w ih =>
      rw [List.forall_mem_cons] at hDigits
      have hc := digitValue_bounds c hDigits.1
      have hCode : (c.toNat : Int) = digitValue c + 48 := by
        unfold digitValue
        omega
      have hLe := le_placeValue (n := n * 10 + digitValue c) (by omega) hDigits.2
      have hHead : placeValue n (c :: w) = placeValue (n * 10 + digitValue c) w := rfl
      have hDecimal : decimal n (c :: w) = decimal (wrap32 (n * 10 + digitValue c)) w := rfl
      rw [hHead, hDecimal, AccumulatesInInt, hCode]
      by_cases hNext : n * 10 + digitValue c + 48 < 2 ^ 31
      · rw [wrap32_of_bounds (by omega) (by omega), ← ih (by omega) hNext hDigits.2]
        refine and_congr_left fun _ => ⟨fun h => h.2.2.2, fun h => ⟨?_, ?_, ?_, h⟩⟩
        · exact ⟨by omega, by omega⟩
        · exact ⟨by omega, by omega⟩
        · exact ⟨by omega, by omega⟩
      · refine iff_of_false (fun h => ?_) (by omega)
        have hHigh := h.1.2.1.2
        omega

namespace VersionText

def majorNumber (v : VersionText) : Int := placeValue 0 (v.major :: v.majorRest)

def minorNumber (v : VersionText) : Int := placeValue 0 (v.minor :: v.minorRest)

/-- The two accumulations of a version stay in an `int`. -/
def Accumulates (v : VersionText) : Prop :=
  AccumulatesInInt (digitValue v.major) v.majorRest ∧ AccumulatesInInt (digitValue v.minor) v.minorRest

/-- The character code of a digit fits on top of both numbers. -/
def Fits (v : VersionText) : Prop := v.majorNumber + 48 < 2 ^ 31 ∧ v.minorNumber + 48 < 2 ^ 31

theorem majorNumber_pos (v : VersionText) : 1 ≤ v.majorNumber := by
  have hFirst := majorDigit_bounds _ v.major_le
  have hLe := le_placeValue (n := 0 * 10 + digitValue v.major) (by omega) v.majorRest_digit
  exact Int.le_trans (by omega) hLe

theorem exact_iff (v : VersionText) :
    v.Accumulates ∧ v.majorValue = v.majorNumber ∧ v.minorValue = v.minorNumber ↔ v.Fits := by
  have hMajor := majorDigit_bounds _ v.major_le
  have hMinor := digitValue_bounds _ v.minor_digit
  have hMajorIff := decimal_exact_iff (n := digitValue v.major) (by omega) (by omega) v.majorRest_digit
  have hMinorIff := decimal_exact_iff (n := digitValue v.minor) (by omega) (by omega) v.minorRest_digit
  have hMajorNumber : v.majorNumber = placeValue (digitValue v.major) v.majorRest := by
    simp [majorNumber, placeValue]
  have hMinorNumber : v.minorNumber = placeValue (digitValue v.minor) v.minorRest := by
    simp [minorNumber, placeValue]
  rw [Fits, hMajorNumber, hMinorNumber, ← hMajorIff, ← hMinorIff]
  exact ⟨fun h => ⟨⟨h.1.1, h.2.1⟩, h.1.2, h.2.2⟩, fun h => ⟨⟨h.1.1, h.2.1⟩, h.1.2, h.2.2⟩⟩

end VersionText

structure VersionFields where
  major : Int
  minor : Int
  version : Int

inductive VersionLine where
  | request (mem : Mem) (b : LtBuffer)
  | status (mem : Mem) (b : LtBuffer)

namespace VersionLine

/-- The parser accepts the line with a zeroed request, and a zeroed status. -/
def Accepted : VersionLine → Prop
  | request mem b => (ngxHttpParseRequestLine mem {} b).1 = .lok
  | status mem b => (ngxHttpParseStatusLine mem {} b {}).1 = .lok

instance : DecidablePred Accepted
  | request _ _ => inferInstanceAs (Decidable (_ = Res.lok))
  | status _ _ => inferInstanceAs (Decidable (_ = Res.lok))

def fields : VersionLine → VersionFields
  | request mem b =>
      let r := (ngxHttpParseRequestLine mem {} b).2.1
      ⟨r.httpMajor, r.httpMinor, r.httpVersion⟩
  | status mem b =>
      let parsed := ngxHttpParseStatusLine mem {} b {}
      ⟨parsed.2.1.httpMajor, parsed.2.1.httpMinor, parsed.2.2.2.httpVersion⟩

def Spells : VersionLine → Option VersionText → Prop
  | request mem b => fun v => ∃ t rest, b.unread mem = RequestLineText.bytes t ++ rest ∧ v = t.version
  | status mem b => fun v => ∃ t rest, b.unread mem = StatusLineText.bytes t ++ rest ∧ v = some t.version

theorem exists_spells {l : VersionLine} (h : l.Accepted) : ∃ v, l.Spells v := by
  cases l with
  | request mem b =>
      obtain ⟨t, rest, hUnread⟩ := exists_requestLineText (r := {}) rfl (Prod.ext h rfl)
      exact ⟨_, t, rest, hUnread, rfl⟩
  | status mem b =>
      obtain ⟨t, rest, hUnread⟩ := @exists_statusLineText mem {} _ b _ {} _ rfl rfl (Prod.ext h rfl)
      exact ⟨_, t, rest, hUnread, rfl⟩

/-- The digits of the version are accumulated, and the two fields are packed into the third. -/
theorem Spells.fields {l : VersionLine} {v : Option VersionText} (h : l.Spells v) :
    l.fields.version = wrap32 (l.fields.major * 1000 + l.fields.minor) ∧
      l.fields.major = v.elim 0 VersionText.majorValue ∧ l.fields.minor = v.elim 9 VersionText.minorValue := by
  cases l with
  | request mem b =>
      obtain ⟨t, rest, hUnread, rfl⟩ := h
      obtain ⟨q, hReads, hParse⟩ := ngxHttpParseRequestLine_text (r := {}) t rfl hUnread
      have hMajor := hReads.major
      have hMinor := hReads.minor
      simp only [VersionLine.fields, hParse, requestLineDone_snd, true_and]
      cases hVersion : t.version with
      | none =>
          rw [hVersion] at hMajor hMinor
          exact ⟨hMajor, hMinor⟩
      | some v =>
          rw [hVersion] at hMajor hMinor
          exact ⟨hMajor, hMinor⟩
  | status mem b =>
      obtain ⟨t, rest, hUnread, rfl⟩ := h
      rw [VersionLine.fields, ngxHttpParseStatusLine_of_text (r := {}) (z := {}) t rfl rfl hUnread]
      exact ⟨rfl, rfl, rfl⟩

end VersionLine

def versionNumbers : Option VersionText → Int × Int
  | none => (0, 9)
  | some v => (v.majorNumber, v.minorNumber)

/-- The parser reads the digits of the version to their values, without an overflow. -/
def ExactVersion : Option VersionText → VersionFields → Prop
  | none, _ => True
  | some v, x => v.Accumulates ∧ x.major = v.majorNumber ∧ x.minor = v.minorNumber

def FitsVersion : Option VersionText → Prop
  | none => True
  | some v => v.Fits

/-- `http_version` tells two pairs of numbers apart. -/
def PackedApart (u v : Int × Int) : Prop :=
  u = v ∨ ¬ (2 ^ 32 : Int) ∣ (u.1 * 1000 + u.2) - (v.1 * 1000 + v.2)

theorem wrap32_eq_iff {a b : Int} : wrap32 a = wrap32 b ↔ (2 ^ 32 : Int) ∣ a - b :=
  Int.bmod_eq_bmod_iff_bmod_sub_eq_zero.trans Int.dvd_iff_bmod_eq_zero.symm

theorem exactVersion_iff {l : VersionLine} {v : Option VersionText} (h : l.Spells v) :
    ExactVersion v l.fields ↔ FitsVersion v := by
  obtain ⟨-, hMajor, hMinor⟩ := h.fields
  cases v with
  | none => exact Iff.rfl
  | some v =>
      rw [ExactVersion, hMajor, hMinor]
      exact v.exact_iff

/-- What is packed into the version of a line whose numbers fit. -/
theorem version_of_fits {l : VersionLine} {v : Option VersionText} (h : l.Spells v) (hFits : FitsVersion v) :
    l.fields.version = wrap32 ((versionNumbers v).1 * 1000 + (versionNumbers v).2) := by
  have hExact := (exactVersion_iff h).mpr hFits
  obtain ⟨hVersion, hMajor, hMinor⟩ := h.fields
  cases v with
  | none => rw [hVersion, hMajor, hMinor]; rfl
  | some v => rw [hVersion, hExact.2.1, hExact.2.2]; rfl

theorem packedApart_iff {u v : Int × Int} :
    PackedApart u v ↔ (u ≠ v → wrap32 (u.1 * 1000 + u.2) ≠ wrap32 (v.1 * 1000 + v.2)) := by
  rw [ne_eq, ne_eq, wrap32_eq_iff, PackedApart, or_iff_not_imp_left]

/-- Two accepted lines have exact numbers, which `http_version` tells apart from each
other and from a line without a version, exactly if the numbers fit and no two of these
pairs are packed into the same number. Digits are read as often as they come, with the
wrap of an int. -/
theorem versions_exact_iff {x y : VersionLine} (hx : x.Accepted) (hy : y.Accepted) :
    (∃ u, x.Spells u) ∧ (∃ v, y.Spells v) ∧
    ∀ u v, x.Spells u → y.Spells v →
      (ExactVersion u x.fields ∧ ExactVersion v y.fields ∧
        (versionNumbers u ≠ versionNumbers v → x.fields.version ≠ y.fields.version) ∧
        (x.fields.version = 9 → u = none) ∧ (y.fields.version = 9 → v = none) ↔
      FitsVersion u ∧ FitsVersion v ∧ PackedApart (versionNumbers u) (versionNumbers v) ∧
        PackedApart (versionNumbers u) (0, 9) ∧ PackedApart (versionNumbers v) (0, 9)) := by
  have hNine : ∀ (l : VersionLine) (w : Option VersionText), l.Spells w → FitsVersion w →
      ((l.fields.version = 9 → w = none) ↔ PackedApart (versionNumbers w) (0, 9)) := by
    intro l w hSpells hFits
    rw [version_of_fits hSpells hFits, packedApart_iff]
    cases w with
    | none => simp [versionNumbers]
    | some w =>
        have hPos := w.majorNumber_pos
        have hNe : versionNumbers (some w) ≠ (0, 9) := fun h => by
          have hMajor : w.majorNumber = 0 := congrArg Prod.fst h
          omega
        simp only [reduceCtorEq, imp_false, hNe, ne_eq, not_false_iff, true_imp_iff]
        rfl
  refine ⟨x.exists_spells hx, y.exists_spells hy, fun u v hu hv => ?_⟩
  rw [exactVersion_iff hu, exactVersion_iff hv]
  refine and_congr_right fun hFitsU => and_congr_right fun hFitsV => ?_
  rw [hNine x u hu hFitsU, hNine y v hv hFitsV, version_of_fits hu hFitsU, version_of_fits hv hFitsV,
    ← packedApart_iff]

theorem get_skip : ∀ c ∈ ([] : List UInt8), c = cr ∨ c = lf := List.forall_mem_nil _

theorem get_ne : ofChars ['G', 'E', 'T'] ≠ [] := List.cons_ne_nil _ _

theorem get_byte : ∀ c ∈ ofChars ['G', 'E', 'T'], IsMethodByte c := by
  simp only [ofChars, List.map_cons, List.map_nil, List.forall_mem_cons]
  exact ⟨by decide, by decide, by decide, List.forall_mem_nil _⟩

def getLine (v : VersionText) : RequestLineText where
  skip := []
  method := ofChars ['G', 'E', 'T']
  gap := 0
  target := .path none [] .nil
  space := 1
  version := some v
  crlf := false
  skip_break := get_skip
  method_ne := get_ne
  method_byte := get_byte
  space_pos _ := Nat.one_pos

def lineBuffer (w : List UInt8) : LtBuffer := ⟨1, 1, 1 + w.length, 1 + w.length⟩

def heldLine (t : RequestLineText) : VersionLine :=
  .request (place (fun _ => 0) 1 t.bytes) (lineBuffer t.bytes)

theorem heldLine_spells (t : RequestLineText) : (heldLine t).Spells t.version :=
  ⟨t, [], by rw [LtBuffer.unread, lineBuffer, slice_place, List.append_nil], rfl⟩

def zerosVersion (n : Nat) : VersionText where
  major := one
  majorRest := []
  minor := one
  minorRest := List.replicate n zero
  after := 0
  major_le := major_one
  majorRest_digit := no_digits
  minor_digit := digit_one
  minorRest_digit _ hc := (List.eq_of_mem_replicate hc).symm ▸ digit_zero

def twoVersion : VersionText where
  major := 50
  majorRest := []
  minor := zero
  minorRest := []
  after := 0
  major_le := by decide
  majorRest_digit := no_digits
  minor_digit := digit_zero
  minorRest_digit := no_digits

theorem versions_exact_iff_two :
    ExactVersion (some (zerosVersion 0)) (heldLine (getLine (zerosVersion 0))).fields ∧
      ExactVersion (some twoVersion) (heldLine (getLine twoVersion)).fields :=
  have h := ((versions_exact_iff (x := heldLine (getLine (zerosVersion 0))) (y := heldLine (getLine twoVersion))
    (by decide) (by decide)).2.2 _ _ (heldLine_spells _) (heldLine_spells _)).mpr
      ⟨⟨by decide, by decide⟩, ⟨by decide, by decide⟩, .inr (by decide), .inr (by decide), .inr (by decide)⟩
  ⟨h.1, h.2.1⟩

/-- HTTP/1.1000 gets the number of HTTP/2.0. -/
theorem not_versions_apart :
    ¬ ∀ (x y : VersionLine) (u v : Option VersionText), x.Accepted → y.Accepted → x.Spells u → y.Spells v →
      ExactVersion u x.fields ∧ ExactVersion v y.fields ∧
        (versionNumbers u ≠ versionNumbers v → x.fields.version ≠ y.fields.version) ∧
        (x.fields.version = 9 → u = none) ∧ (y.fields.version = 9 → v = none) := by
  intro hClaim
  have hApart := (hClaim (heldLine (getLine (zerosVersion 3))) (heldLine (getLine twoVersion)) _ _ (by decide)
    (by decide) (heldLine_spells _) (heldLine_spells _)).2.2.1
  exact hApart (by decide) (by decide)

end Leactor
