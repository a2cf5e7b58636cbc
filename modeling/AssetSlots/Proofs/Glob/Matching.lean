import AssetSlots.Glob.Language
import AssetSlots.Glob.Match

namespace AssetSlots.Glob

variable {start b : Bool} {c : Char} {t piece rest : List Char} {row after : List Bool}
  {token : Token} {tokens : List Token}

section Pieces

theorem startsAfter_cons (start : Bool) (c : Char) (piece : List Char) :
    startsAfter start (c :: piece) = startsAfter (c == '/') piece := by
  rw [startsAfter, startsAfter, List.getLast?_cons]
  cases piece.getLast? <;> rfl

theorem visible_nil : Visible start [] := by
  intro a b h
  simp at h

theorem visible_cons_iff :
    Visible start (c :: piece) ↔ (start && c == '.') = false ∧ Visible (c == '/') piece := by
  constructor
  · intro h
    refine ⟨?_, fun a b hpiece => ?_⟩
    · by_cases hc : c = '.'
      · have hstart : start = false := h [] piece (by rw [hc, List.nil_append])
        rw [hstart, Bool.false_and]
      · simp [hc]
    · have hstart := h (c :: a) b (by rw [hpiece, List.cons_append])
      rwa [startsAfter_cons] at hstart
  · rintro ⟨hc, hpiece⟩ a b h
    cases a with
    | nil =>
        obtain rfl : c = '.' := (List.cons.inj h).1
        change start = false
        simpa using hc
    | cons d a =>
        obtain ⟨rfl, rfl⟩ := List.cons.inj h
        rw [startsAfter_cons]
        exact hpiece a b rfl

theorem visible_singleton_iff : Visible start [c] ↔ (start && c == '.') = false := by
  rw [visible_cons_iff, and_iff_left visible_nil]

end Pieces

section Tokens

def Token.IsSingle (token : Token) : Prop := token ≠ .anyRun ∧ token ≠ .anyFolders

theorem takes_iff_of_isSingle (h : token.IsSingle) :
    Takes start token piece rest ↔ ∃ c, piece = [c] ∧ token.admits start c = true := by
  cases token with
  | char d =>
      constructor
      · rintro ⟨⟩
        exact ⟨d, rfl, beq_self_eq_true d⟩
      · rintro ⟨c, rfl, hc⟩
        obtain rfl : c = d := beq_iff_eq.mp hc
        exact .char
  | anyChar =>
      constructor
      · rintro (_ | hc)
        exact ⟨_, rfl, by simp [Token.admits, visible_singleton_iff.mp hc]⟩
      · rintro ⟨c, rfl, hc⟩
        rw [Token.admits, Bool.not_eq_true'] at hc
        exact .anyChar (visible_singleton_iff.mpr hc)
  | within set =>
      constructor
      · rintro (_ | _ | ⟨hc, hset⟩)
        exact ⟨_, rfl, by simpa [Token.admits, visible_singleton_iff.mp hc] using hset⟩
      · rintro ⟨c, rfl, hc⟩
        simp only [Token.admits, Bool.and_eq_true, Bool.not_eq_true', List.any_eq_true] at hc
        exact .within (visible_singleton_iff.mpr hc.1) hc.2
  | without set =>
      constructor
      · rintro (_ | _ | _ | ⟨hc, hset⟩)
        exact ⟨_, rfl, by simpa [Token.admits, visible_singleton_iff.mp hc] using hset⟩
      · rintro ⟨c, rfl, hc⟩
        simp only [Token.admits, Bool.and_eq_true, Bool.not_eq_true', List.any_eq_false,
          Bool.not_eq_true] at hc
        exact .without (visible_singleton_iff.mpr hc.1) hc.2
  | anyRun => exact absurd rfl h.1
  | anyFolders => exact absurd rfl h.2

theorem describes_nil_iff : Describes start [] t ↔ t = [] := by
  constructor
  · rintro ⟨⟩
    rfl
  · rintro rfl
    exact .nil

theorem describes_cons_iff : Describes start (token :: tokens) t ↔
    ∃ piece rest, t = piece ++ rest ∧ Takes start token piece rest ∧
      Describes (startsAfter start piece) tokens rest := by
  constructor
  · rintro (_ | ⟨htakes, hrest⟩)
    exact ⟨_, _, rfl, htakes, hrest⟩
  · rintro ⟨piece, rest, rfl, htakes, hrest⟩
    exact .cons htakes hrest

theorem not_describes_single_nil (h : token.IsSingle) : ¬Describes start (token :: tokens) [] := by
  rw [describes_cons_iff]
  rintro ⟨piece, rest, ht, htakes, -⟩
  obtain ⟨c, rfl, -⟩ := (takes_iff_of_isSingle h).mp htakes
  cases ht

theorem describes_single_cons_iff (h : token.IsSingle) :
    Describes start (token :: tokens) (c :: t) ↔
      token.admits start c = true ∧ Describes (c == '/') tokens t := by
  rw [describes_cons_iff]
  constructor
  · rintro ⟨piece, rest, ht, htakes, hrest⟩
    obtain ⟨d, rfl, hd⟩ := (takes_iff_of_isSingle h).mp htakes
    obtain ⟨rfl, rfl⟩ := List.cons.inj ht
    exact ⟨hd, hrest⟩
  · rintro ⟨hc, hrest⟩
    exact ⟨[c], t, rfl, (takes_iff_of_isSingle h).mpr ⟨c, rfl, hc⟩, hrest⟩

theorem takes_run_iff : Takes start .anyRun piece rest ↔ Visible start piece := by
  constructor
  · rintro (_ | _ | _ | _ | hpiece)
    exact hpiece
  · exact .anyRun

theorem describes_run_nil_iff :
    Describes start (.anyRun :: tokens) [] ↔ Describes start tokens [] := by
  rw [describes_cons_iff]
  constructor
  · rintro ⟨piece, rest, ht, -, hrest⟩
    obtain ⟨rfl, rfl⟩ := List.append_eq_nil_iff.mp ht.symm
    exact hrest
  · exact fun h => ⟨[], [], rfl, takes_run_iff.mpr visible_nil, h⟩

/-- A star takes nothing, or one more character. -/
theorem describes_run_cons_iff : Describes start (.anyRun :: tokens) (c :: t) ↔
    Describes start tokens (c :: t) ∨
      (start && c == '.') = false ∧ Describes (c == '/') (.anyRun :: tokens) t := by
  simp only [describes_cons_iff, takes_run_iff]
  constructor
  · rintro ⟨_ | ⟨d, piece⟩, rest, ht, hpiece, hrest⟩
    · obtain rfl : c :: t = rest := ht
      exact .inl hrest
    · obtain ⟨rfl, rfl⟩ := List.cons.inj ht
      obtain ⟨hc, hpiece⟩ := visible_cons_iff.mp hpiece
      rw [startsAfter_cons] at hrest
      exact .inr ⟨hc, piece, rest, rfl, hpiece, hrest⟩
  · rintro (h | ⟨hc, piece, rest, rfl, hpiece, hrest⟩)
    · exact ⟨[], c :: t, rfl, visible_nil, h⟩
    · refine ⟨c :: piece, rest, rfl, visible_cons_iff.mpr ⟨hc, hpiece⟩, ?_⟩
      rwa [startsAfter_cons]

def Spans (start : Bool) (tokens : List Token) (t : List Char) : Prop :=
  ∃ piece rest, t = piece ++ rest ∧ Visible start piece ∧
    (piece.getLast? = some '/' ∨ rest = []) ∧ Describes (startsAfter start piece) tokens rest

theorem spans_nil_iff : Spans start tokens [] ↔ Describes start tokens [] := by
  constructor
  · rintro ⟨piece, rest, ht, -, -, hrest⟩
    obtain ⟨rfl, rfl⟩ := List.append_eq_nil_iff.mp ht.symm
    exact hrest
  · exact fun h => ⟨[], [], rfl, visible_nil, .inr rfl, h⟩

theorem spans_cons_iff : Spans start tokens (c :: t) ↔ (start && c == '.') = false ∧
    (c = '/' ∧ Describes (c == '/') tokens t ∨ Spans (c == '/') tokens t) := by
  constructor
  · rintro ⟨_ | ⟨d, piece⟩, rest, ht, hpiece, hend, hrest⟩
    · obtain rfl : c :: t = rest := ht
      simp at hend
    · obtain ⟨rfl, rfl⟩ := List.cons.inj ht
      obtain ⟨hc, hpiece⟩ := visible_cons_iff.mp hpiece
      rw [startsAfter_cons] at hrest
      refine ⟨hc, ?_⟩
      cases piece with
      | nil =>
          rcases hend with hslash | rfl
          · exact .inl ⟨by simpa using hslash, hrest⟩
          · exact .inr ⟨[], [], rfl, hpiece, .inr rfl, hrest⟩
      | cons e piece =>
          rw [List.getLast?_cons_cons] at hend
          exact .inr ⟨e :: piece, rest, rfl, hpiece, hend, hrest⟩
  · rintro ⟨hc, ⟨rfl, hrest⟩ | ⟨piece, rest, rfl, hpiece, hend, hrest⟩⟩
    · exact ⟨['/'], t, rfl, visible_singleton_iff.mpr hc, .inl rfl, hrest⟩
    · refine ⟨c :: piece, rest, rfl, visible_cons_iff.mpr ⟨hc, hpiece⟩, ?_, ?_⟩
      · refine hend.imp_left fun hslash => ?_
        rw [List.getLast?_cons, hslash, Option.getD_some]
      · rwa [startsAfter_cons]

theorem describes_folders_iff : Describes start (.anyFolders :: tokens) t ↔
    Describes start tokens t ∨ Spans start tokens t := by
  rw [describes_cons_iff]
  constructor
  · rintro ⟨piece, rest, rfl, htakes, hrest⟩
    cases htakes with
    | noFolders => exact .inl hrest
    | anyFolders hpiece hslash => exact .inr ⟨_, _, rfl, hpiece, .inl hslash, hrest⟩
    | allFolders hpiece => exact .inr ⟨_, _, rfl, hpiece, .inr rfl, hrest⟩
  · rintro (h | ⟨piece, rest, rfl, hpiece, hslash | rfl, hrest⟩)
    · exact ⟨[], t, rfl, .noFolders, h⟩
    · exact ⟨piece, rest, rfl, .anyFolders hpiece hslash, hrest⟩
    · exact ⟨piece, [], rfl, .allFolders hpiece, hrest⟩

end Tokens

section Rows

variable {P Q : Bool → List Char → Prop}

/-- The row has an entry for each suffix of the text, from the whole text to the empty one, which
tells whether `P` holds of it. -/
inductive Tells (P : Bool → List Char → Prop) : Bool → List Char → List Bool → Prop
  | nil {start b : Bool} : (b = true ↔ P start []) → Tells P start [] [b]
  | cons {start b : Bool} {c : Char} {t : List Char} {row : List Bool} :
      (b = true ↔ P start (c :: t)) → Tells P (c == '/') t row → Tells P start (c :: t) (b :: row)

namespace Tells

theorem headD (h : Tells P start t row) : row.headD false = true ↔ P start t := by
  cases h with
  | nil hb => exact hb
  | cons hb _ => exact hb

theorem congr (h : Tells P start t row) (hPQ : ∀ start t, P start t ↔ Q start t) :
    Tells Q start t row := by
  induction h with
  | nil hb => exact .nil (hb.trans (hPQ _ _))
  | cons hb _ ih => exact .cons (hb.trans (hPQ _ _)) ih

theorem or (hP : Tells P start t row) (hQ : Tells Q start t after) :
    Tells (fun start t => P start t ∨ Q start t) start t (row.zipWith (· || ·) after) := by
  induction hP generalizing after with
  | nil hb =>
      cases hQ with
      | nil hb' => exact .nil (by rw [Bool.or_eq_true, hb, hb'])
  | cons hb _ ih =>
      cases hQ with
      | cons hb' hrow => exact .cons (by rw [Bool.or_eq_true, hb, hb']) (ih hrow)

end Tells

theorem tells_lastRow (start : Bool) (t : List Char) :
    Tells (fun start t => Describes start [] t) start t (lastRow t) := by
  induction t generalizing start with
  | nil => exact .nil (by simp [describes_nil_iff])
  | cons c t ih => exact .cons (by simp [describes_nil_iff]) (ih _)

variable (h : Tells (fun start t => Describes start tokens t) start t after)
include h

theorem tells_oneRow (hone : token.IsSingle) :
    Tells (fun start t => Describes start (token :: tokens) t) start t
      (oneRow token start t after) := by
  induction h with
  | nil _ => exact .nil (by simp [not_describes_single_nil hone])
  | cons _ hrow ih =>
      refine .cons ?_ ih
      rw [Bool.and_eq_true, hrow.headD, describes_single_cons_iff hone]

theorem tells_runRow :
    Tells (fun start t => Describes start (.anyRun :: tokens) t) start t
      (runRow start t after) := by
  induction h with
  | nil hb => exact .nil (hb.trans describes_run_nil_iff.symm)
  | cons hb _ ih =>
      refine .cons ?_ ih
      rw [Bool.or_eq_true, Bool.and_eq_true, Bool.not_eq_true', ih.headD, hb,
        describes_run_cons_iff]

theorem tells_foldersRow :
    Tells (fun start t => Spans start tokens t) start t (foldersRow start t after) := by
  induction h with
  | nil hb => exact .nil (hb.trans spans_nil_iff.symm)
  | cons hb hrow ih =>
      refine .cons ?_ ih
      rw [Bool.and_eq_true, Bool.not_eq_true', Bool.or_eq_true, Bool.and_eq_true, beq_iff_eq,
        hrow.headD, ih.headD, spans_cons_iff]

end Rows

/-- The row of a token, from the row of the tokens after it. -/
theorem tells_row {name : List Char}
    (h : Tells (fun start t => Describes start tokens t) true name after) (token : Token) :
    Tells (fun start t => Describes start (token :: tokens) t) true name
      (token.row name after) := by
  cases token with
  | anyRun => exact tells_runRow h
  | anyFolders => exact (h.or (tells_foldersRow h)).congr fun _ _ => describes_folders_iff.symm
  | _ => exact tells_oneRow h ⟨nofun, nofun⟩

theorem tells_foldr (tokens : List Token) (name : List Char) :
    Tells (fun start t => Describes start tokens t) true name
      (tokens.foldr (Token.row name) (lastRow name)) := by
  induction tokens with
  | nil => exact tells_lastRow true name
  | cons token tokens ih => exact tells_row ih token

/-- Matching finds exactly the names that the pattern describes. -/
theorem Pattern.accepts_iff (p : Pattern) (name : String) : p.accepts name = true ↔ p.Names name :=
  (tells_foldr p.tokens name.toList).headD

end AssetSlots.Glob
