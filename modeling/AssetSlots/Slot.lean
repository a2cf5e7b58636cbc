import AssetSlots.Error
import AssetSlots.Text.Blank

namespace AssetSlots

open Text

/-- A marker's text. It neither begins nor ends with white space, but it may hold line breaks. -/
structure Slot where
  token : List Char
  ne_nil : token ≠ []
  head : ∀ c, token.head? = some c → isWhite c = false
  last : ∀ c, token.getLast? = some c → isWhite c = false
  deriving DecidableEq

namespace Slot

def ofText (text : String) : Except Error Slot :=
  if h : trim text.toList = [] then .error (.blankSlot text)
  else .ok ⟨trim text.toList, h, fun _ => isWhite_head_trim, fun _ => isWhite_last_trim⟩

/-- A marker as it stands in a text: the line break before it, if it ends the text, its
indentation, the blanks after the token, and the line break that ends its line. -/
structure Hit where
  leading : List Char
  indent : List Char
  trailing : List Char
  terminator : List Char

namespace Hit

def text (s : Slot) (h : Hit) : List Char :=
  h.leading ++ h.indent ++ s.token ++ h.trailing ++ h.terminator

def separator (h : Hit) : List Char :=
  if h.terminator ≠ [] then h.terminator
  else if h.leading ≠ [] then h.leading
  else ['\n']

def replacement (h : Hit) (lines : List (List Char)) : List Char :=
  if lines = [] then []
  else h.leading ++ h.separator.intercalate (lines.map (h.indent ++ ·)) ++ h.terminator

end Hit

def after? : (token t : List Char) → Option (List Char)
  | [], t => some t
  | _ :: _, [] => none
  | a :: token, c :: t => if a = c then after? token t else none

def lineBreak? : List Char → Option (List Char × List Char)
  | '\n' :: t => some (['\n'], t)
  | '\r' :: '\n' :: t => some (['\r', '\n'], t)
  | _ => none

def marker? (s : Slot) (t : List Char) : Option (List Char × List Char × List Char) :=
  (after? s.token (t.dropWhile isBlank)).map fun rest =>
    (t.takeWhile isBlank, rest.takeWhile isBlank, rest.dropWhile isBlank)

def closed? (s : Slot) (t : List Char) : Option Hit :=
  match s.marker? t with
  | some (indent, trailing, rest) =>
    (lineBreak? rest).map fun (terminator, _) => ⟨[], indent, trailing, terminator⟩
  | none => none

def last? (s : Slot) (leading t : List Char) : Option Hit :=
  match s.marker? t with
  | some (indent, trailing, []) => some ⟨leading, indent, trailing, []⟩
  | _ => none

/-- The marker at the front of `t`; `start` holds at the start of a line. A marker that has a line
break of its own takes that one, so the break before it is taken at the end of the text only. -/
def hit? (s : Slot) (start : Bool) (t : List Char) : Option Hit :=
  (if start then s.closed? t else none) <|>
    (match lineBreak? t with
      | some (leading, rest) => s.last? leading rest
      | none => none) <|>
    if start then s.last? [] t else none

/-- Fills the slots of `t`, whose first `covered` characters belong to a marker already replaced. -/
def fillFrom (s : Slot) (lines : List (List Char)) (start : Bool) (covered : Nat) :
    List Char → List Char
  | [] => []
  | c :: t =>
    match covered with
    | n + 1 => s.fillFrom lines (c == '\n') n t
    | 0 =>
      match s.hit? start (c :: t) with
      | some h => h.replacement lines ++ s.fillFrom lines (c == '\n') ((h.text s).length - 1) t
      | none => c :: s.fillFrom lines (c == '\n') 0 t

def fill (s : Slot) (chunk : String) (lines : List String) : String :=
  String.ofList (s.fillFrom (lines.map String.toList) true 0 chunk.toList)

theorem after?_eq_some_iff {token t rest : List Char} :
    after? token t = some rest ↔ t = token ++ rest := by
  fun_induction after? token t <;> simp_all
  intro h
  simp_all

theorem lineBreak?_eq_some {t b rest : List Char} (h : lineBreak? t = some (b, rest)) :
    t = b ++ rest := by
  unfold lineBreak? at h
  split at h <;> simp_all
  · obtain ⟨rfl, rfl⟩ := h
    rfl
  · obtain ⟨rfl, rfl⟩ := h
    rfl

theorem marker?_eq_some {s : Slot} {t indent trailing rest : List Char}
    (h : s.marker? t = some (indent, trailing, rest)) :
    t = indent ++ s.token ++ trailing ++ rest := by
  simp only [marker?, Option.map_eq_some_iff, after?_eq_some_iff, Prod.mk.injEq] at h
  obtain ⟨r, hr, rfl, rfl, rfl⟩ := h
  rw [List.append_assoc _ (r.takeWhile _), List.takeWhile_append_dropWhile, List.append_assoc, ← hr,
    List.takeWhile_append_dropWhile]

end Slot

end AssetSlots
