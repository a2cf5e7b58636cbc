namespace AssetSlots.Text

/-- The code points with the White_Space property, as closed ranges in ascending order. -/
def whiteRanges : List (Nat × Nat) :=
  [(0x09, 0x0D), (0x20, 0x20), (0x85, 0x85), (0xA0, 0xA0), (0x1680, 0x1680), (0x2000, 0x200A),
    (0x2028, 0x2029), (0x202F, 0x202F), (0x205F, 0x205F), (0x3000, 0x3000)]

def isWhite (c : Char) : Bool :=
  whiteRanges.any fun r => decide (r.1 ≤ c.toNat) && decide (c.toNat ≤ r.2)

def isBlank (c : Char) : Bool := isWhite c && c != '\n' && c != '\r'

def trimStart (t : List Char) : List Char := t.dropWhile isWhite

def trimEnd (t : List Char) : List Char := (t.reverse.dropWhile isWhite).reverse

def trim (t : List Char) : List Char := trimEnd (trimStart t)

def sameLetters (a b : String) : Bool := a.toList.map Char.toLower == b.toList.map Char.toLower

theorem isWhite_of_isBlank {c : Char} (h : isBlank c = true) : isWhite c = true := by
  simp only [isBlank, Bool.and_eq_true] at h
  exact h.1.1

theorem trimEnd_append (t : List Char) :
    trimEnd t ++ (t.reverse.takeWhile isWhite).reverse = t := by
  rw [trimEnd, ← List.reverse_append, List.takeWhile_append_dropWhile, List.reverse_reverse]

theorem isWhite_head_trim {t : List Char} {c : Char} (h : (trim t).head? = some c) :
    isWhite c = false := by
  have hs : (trimStart t).head? = some c := by
    rw [← trimEnd_append (trimStart t), List.head?_append]
    rw [trim] at h
    simp [h]
  have := List.head?_dropWhile_not isWhite t
  rw [trimStart] at hs
  simpa [hs] using this

theorem isWhite_last_trim {t : List Char} {c : Char} (h : (trim t).getLast? = some c) :
    isWhite c = false := by
  have := List.head?_dropWhile_not isWhite (trimStart t).reverse
  rw [trim, trimEnd, List.getLast?_reverse] at h
  simpa [h] using this

theorem trim_eq_nil_iff {t : List Char} : trim t = [] ↔ ∀ c ∈ t, isWhite c = true := by
  have drop (u : List Char) : u.dropWhile isWhite = [] ↔ ∀ c ∈ u, isWhite c = true := by
    induction u with
    | nil => simp
    | cons c u ih => by_cases hc : isWhite c = true <;> simp [hc, ih]
  have front : ∀ c ∈ t.takeWhile isWhite, isWhite c = true :=
    List.all_eq_true.1 List.all_takeWhile
  rw [trim, trimEnd, List.reverse_eq_nil_iff, drop, trimStart]
  constructor
  · intro h c hc
    rw [← List.takeWhile_append_dropWhile (p := isWhite) (l := t), List.mem_append] at hc
    exact hc.elim (front c) fun hc => h c (by simpa using hc)
  · intro h c hc
    exact h c ((List.dropWhile_sublist isWhite).subset (by simpa using hc))

end AssetSlots.Text
