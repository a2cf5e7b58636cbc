import AssetSlots.Glob.Pattern
import AssetSlots.Proofs.Fallible
import Mathlib

namespace AssetSlots.Glob

variable {pos : Nat} {boundary : Bool} {set : Option OpenSet} {s : OpenSet} {c : Char}
  {t : List Char} {tokens : List Token}

/-- The text writes the tokens. `boundary` holds at the start of a path component: there alone `**`
may stand, and it has to fill the component. A `]` is a member of a set only if it comes first. -/
inductive Writes : Bool → List Token → List Char → Prop
  | nil {boundary : Bool} : Writes boundary [] []
  | char {boundary : Bool} {c : Char} {tokens : List Token} {t : List Char} :
      c ∉ ['*', '?', '['] → Writes (c == '/') tokens t →
      Writes boundary (.char c :: tokens) (c :: t)
  | anyChar {boundary : Bool} {tokens : List Token} {t : List Char} :
      Writes false tokens t → Writes boundary (.anyChar :: tokens) ('?' :: t)
  | anyRun {boundary : Bool} {tokens : List Token} {t : List Char} :
      t.head? ≠ some '*' → Writes false tokens t → Writes boundary (.anyRun :: tokens) ('*' :: t)
  | anyFolders {tokens : List Token} {t : List Char} :
      Writes true tokens t → Writes true (.anyFolders :: tokens) ('*' :: '*' :: '/' :: t)
  | allFolders : Writes true [.anyFolders] ['*', '*']
  | within {boundary : Bool} {members : List Char} {tokens : List Token} {t : List Char} :
      members ≠ [] → ']' ∉ members.tail → members.head? ≠ some '!' → Writes false tokens t →
      Writes boundary (.within (specifiers members) :: tokens) ('[' :: members ++ ']' :: t)
  | without {boundary : Bool} {members : List Char} {tokens : List Token} {t : List Char} :
      members ≠ [] → ']' ∉ members.tail → Writes false tokens t →
      Writes boundary (.without (specifiers members) :: tokens) ('[' :: '!' :: members ++ ']' :: t)

def Completes (s : OpenSet) (tokens : List Token) (t : List Char) : Prop :=
  ∃ more rest tokens', t = more ++ ']' :: rest ∧ s.members ++ more ≠ [] ∧
    (']' ∉ if s.members = [] then more.tail else more) ∧
    tokens = OpenSet.token { s with members := s.members ++ more } :: tokens' ∧
    Writes false tokens' rest

def Continues (boundary : Bool) (set : Option OpenSet) (tokens : List Token) (t : List Char) :
    Prop :=
  match set with
  | none => Writes boundary tokens t
  | some s => Completes s tokens t

theorem not_completes_nil : ¬Completes s tokens [] := by
  rintro ⟨more, rest, -, h, -⟩
  simp at h

theorem completes_close_iff (h : s.members ≠ []) :
    Completes s tokens (']' :: t) ↔ ∃ rest, tokens = s.token :: rest ∧ Writes false rest t := by
  constructor
  · rintro ⟨more, rest, tokens', ht, -, hmore, rfl, hrest⟩
    rw [if_neg h] at hmore
    cases more with
    | nil =>
        obtain rfl : t = rest := by simpa using ht
        exact ⟨tokens', by rw [List.append_nil], hrest⟩
    | cons d more =>
        obtain rfl : ']' = d := (List.cons.inj ht).1
        exact absurd List.mem_cons_self hmore
  · rintro ⟨rest, rfl, hrest⟩
    exact ⟨[], t, rest, rfl, by simpa using h, by simp [h], by rw [List.append_nil], hrest⟩

theorem completes_member_iff (h : ¬(c = ']' ∧ s.members ≠ [])) :
    Completes s tokens (c :: t) ↔ Completes { s with members := s.members ++ [c] } tokens t := by
  have hfirst (more : List Char) :
      (']' ∉ if s.members = [] then more else c :: more) ↔ ']' ∉ more := by
    by_cases hs : s.members = []
    · rw [if_pos hs]
    · have hc : ']' ≠ c := fun hc => h ⟨hc.symm, hs⟩
      simp [hs, hc]
  constructor
  · rintro ⟨more, rest, tokens', ht, hne, hmore, rfl, hrest⟩
    cases more with
    | nil =>
        obtain rfl : c = ']' := (List.cons.inj ht).1
        exact absurd ⟨rfl, by simpa using hne⟩ h
    | cons d more =>
        obtain ⟨rfl, rfl⟩ := List.cons.inj ht
        have hrest' : ']' ∉ more := (hfirst more).mp (by simpa using hmore)
        exact ⟨more, rest, tokens', rfl, by simp, by simpa using hrest', by simp, hrest⟩
  · rintro ⟨more, rest, tokens', rfl, -, hmore, rfl, hrest⟩
    have hmore' : ']' ∉ more := by simpa using hmore
    exact ⟨c :: more, rest, tokens', rfl, by simp, (hfirst more).mpr hmore', by simp, hrest⟩

theorem writes_negated_iff :
    Writes boundary tokens ('[' :: '!' :: t) ↔ Completes ⟨pos, true, []⟩ tokens t := by
  constructor
  · intro h
    generalize hu : '[' :: '!' :: t = u at h
    cases h with
    | char hc _ =>
        obtain rfl := (List.cons.inj hu).1
        simp at hc
    | within hne htail hhead hrest =>
        obtain ⟨d, members, rfl⟩ := List.exists_cons_of_ne_nil hne
        obtain rfl : '!' = d := (List.cons.inj (List.cons.inj hu).2).1
        simp at hhead
    | without hne htail hrest =>
        obtain rfl := (List.cons.inj (List.cons.inj hu).2).2
        exact ⟨_, _, _, rfl, hne, htail, rfl, hrest⟩
    | _ => simp at hu
  · rintro ⟨members, rest, tokens', rfl, hne, htail, rfl, hrest⟩
    exact .without hne htail hrest

theorem writes_positive_iff (h : t.head? ≠ some '!') :
    Writes boundary tokens ('[' :: t) ↔ Completes ⟨pos, false, []⟩ tokens t := by
  constructor
  · intro hw
    generalize hu : '[' :: t = u at hw
    cases hw with
    | char hc _ =>
        obtain rfl := (List.cons.inj hu).1
        simp at hc
    | within hne htail hhead hrest =>
        obtain rfl := (List.cons.inj hu).2
        exact ⟨_, _, _, rfl, hne, htail, rfl, hrest⟩
    | without hne htail hrest =>
        obtain rfl := (List.cons.inj hu).2
        simp at h
    | _ => simp at hu
  · rintro ⟨members, rest, tokens', rfl, hne, htail, rfl, hrest⟩
    refine .within hne htail ?_ hrest
    cases members with
    | nil => simp
    | cons d members => simpa using h

theorem writes_run_iff (h : t.head? ≠ some '*') : Writes boundary tokens ('*' :: t) ↔
    ∃ rest, tokens = .anyRun :: rest ∧ Writes false rest t := by
  constructor
  · intro hw
    cases hw with
    | char hc => simp at hc
    | anyRun _ hrest => exact ⟨_, rfl, hrest⟩
    | anyFolders => simp at h
    | allFolders => simp at h
  · rintro ⟨rest, rfl, hrest⟩
    exact .anyRun h hrest

/-- After two stars the component has to be over. -/
theorem writes_folders_iff : Writes boundary tokens ('*' :: '*' :: t) ↔ boundary = true ∧
    (t = [] ∧ tokens = [.anyFolders] ∨
      ∃ t' rest, t = '/' :: t' ∧ tokens = .anyFolders :: rest ∧ Writes true rest t') := by
  constructor
  · intro hw
    cases hw with
    | char hc => simp at hc
    | anyRun hhead _ => simp at hhead
    | anyFolders hrest => exact ⟨rfl, .inr ⟨_, _, rfl, rfl, hrest⟩⟩
    | allFolders => exact ⟨rfl, .inl ⟨rfl, rfl⟩⟩
  · rintro ⟨rfl, ⟨rfl, rfl⟩ | ⟨t', rest, rfl, rfl, hrest⟩⟩
    · exact .allFolders
    · exact .anyFolders hrest

theorem writes_anyChar_iff : Writes boundary tokens ('?' :: t) ↔
    ∃ rest, tokens = .anyChar :: rest ∧ Writes false rest t := by
  constructor
  · intro hw
    cases hw with
    | char hc => simp at hc
    | anyChar hrest => exact ⟨_, rfl, hrest⟩
  · rintro ⟨rest, rfl, hrest⟩
    exact .anyChar hrest

theorem writes_char_iff (h : c ∉ ['*', '?', '[']) : Writes boundary tokens (c :: t) ↔
    ∃ rest, tokens = .char c :: rest ∧ Writes (c == '/') rest t := by
  constructor
  · intro hw
    cases hw with
    | char _ hrest => exact ⟨_, rfl, hrest⟩
    | _ => simp at h
  · rintro ⟨rest, rfl, hrest⟩
    exact .char h hrest

theorem writes_nil_iff : Writes boundary tokens [] ↔ tokens = [] := by
  constructor
  · intro hw
    cases hw
    rfl
  · rintro rfl
    exact .nil

theorem map_cons_eq_ok_iff {x : Except Flaw (List Token)} {token : Token} :
    (token :: ·) <$> x = .ok tokens ↔ ∃ rest, tokens = token :: rest ∧ x = .ok rest := by
  rw [Fallible.map_eq_ok_iff]
  exact exists_congr fun rest => and_comm.trans (and_congr_left' eq_comm)

theorem readTokens_eq_ok_iff :
    readTokens pos boundary set t = .ok tokens ↔ Continues boundary set tokens t := by
  fun_induction readTokens pos boundary set t generalizing tokens with
  | case1 => simp [Continues, writes_nil_iff, eq_comm]
  | case2 => simp [Continues, not_completes_nil]
  | case3 pos boundary c t s hclose ih =>
      obtain ⟨rfl, hs⟩ := hclose
      simp only [map_cons_eq_ok_iff, ih, Continues, completes_close_iff hs]
  | case4 pos boundary c t s hmember ih =>
      rw [ih, Continues, Continues, completes_member_iff hmember]
  | case5 pos boundary t ih => rw [ih, Continues, Continues, writes_negated_iff]
  | case6 pos boundary t hpositive ih =>
      have hhead : t.head? ≠ some '!' := by
        cases t with
        | nil => simp
        | cons d t => simpa using fun hd : d = '!' => hpositive t (hd ▸ rfl)
      rw [ih, Continues, Continues, writes_positive_iff hhead]
  | case7 => simp [Continues, writes_folders_iff]
  | case8 pos boundary t _ hinside =>
      have hb : boundary = false := by simpa using hinside
      simp [Continues, writes_folders_iff, hb]
  | case9 pos boundary hinside =>
      have hb : boundary = true := by simpa using hinside
      simp [Continues, writes_folders_iff, hb, eq_comm]
  | case10 pos boundary hinside t _ ih =>
      have hb : boundary = true := by simpa using hinside
      simp [map_cons_eq_ok_iff, ih, Continues, writes_folders_iff, hb]
  | case11 pos boundary t _ _ hend hslash =>
      rw [Continues, writes_folders_iff]
      constructor
      · intro h
        cases h
      · rintro ⟨-, ⟨rfl, -⟩ | ⟨t', _, rfl, -⟩⟩
        · exact absurd rfl hend
        · exact absurd rfl (hslash t')
  | case12 pos boundary t _ hone ih =>
      have hhead : t.head? ≠ some '*' := by
        cases t with
        | nil => simp
        | cons d t => simpa using fun hd : d = '*' => hone t (hd ▸ rfl)
      simp only [map_cons_eq_ok_iff, ih, Continues, writes_run_iff hhead]
  | case13 pos boundary t ih => simp only [map_cons_eq_ok_iff, ih, Continues, writes_anyChar_iff]
  | case14 pos boundary c t _ hopen _ _ hstar hmark ih =>
      have hc : c ∉ ['*', '?', '['] := by simpa using ⟨hstar, hmark, hopen⟩
      simp only [map_cons_eq_ok_iff, ih, Continues, writes_char_iff hc]

def WellFormed (text : String) : Prop := ∃ tokens, Writes true tokens text.toList

namespace Pattern

variable {text : String} {p : Pattern}

theorem parse_eq_ok_iff : parse text = .ok p ↔ Writes true p.tokens text.toList := by
  obtain ⟨tokens⟩ := p
  simp [parse, Fallible.map_eq_ok_iff, readTokens_eq_ok_iff, Continues]

theorem exists_parse_iff : (∃ p, parse text = .ok p) ↔ WellFormed text := by
  constructor
  · rintro ⟨p, hp⟩
    exact ⟨p.tokens, parse_eq_ok_iff.mp hp⟩
  · rintro ⟨tokens, htokens⟩
    exact ⟨⟨tokens⟩, parse_eq_ok_iff.mpr htokens⟩

theorem not_wellFormed_of_parse {flaw : Flaw} (h : parse text = .error flaw) :
    ¬WellFormed text := by
  rw [← exists_parse_iff, h]
  rintro ⟨p, hp⟩
  cases hp

end Pattern

end AssetSlots.Glob
