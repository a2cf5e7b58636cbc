import AssetSlots.Proofs.Folder.Listing
import AssetSlots.Proofs.Glob.Grammar

namespace AssetSlots

namespace Glob

variable {boundary : Bool} {token : Token} {tokens before after : List Token}
  {t stars rest : List Char}

def Token.IsStar (token : Token) : Prop := token = .anyRun ∨ token = .anyFolders

theorem Token.isSingle_or_isStar (token : Token) : token.IsSingle ∨ token.IsStar := by
  cases token with
  | anyRun => exact .inr (.inl rfl)
  | anyFolders => exact .inr (.inr rfl)
  | _ => exact .inl ⟨nofun, nofun⟩

theorem Token.admits_dot_iff (h : token.IsSingle) :
    token.admits true '.' = true ↔ token = .char '.' := by
  cases token with
  | char c => rw [admits, beq_iff_eq, char.injEq, eq_comm]
  | anyRun => exact absurd rfl h.1
  | anyFolders => exact absurd rfl h.2
  | _ => simp [admits]

theorem describes_star_dot_iff (h : token.IsStar) :
    Describes true (token :: tokens) ('.' :: t) ↔ Describes true tokens ('.' :: t) := by
  rcases h with rfl | rfl
  · simp [describes_run_cons_iff]
  · simp [describes_folders_iff, spans_cons_iff]

/-- The dot at the start of a name is left to a literal one, which only stars can stand before. -/
theorem describes_dot_iff : Describes true tokens ('.' :: t) ↔
    ∃ before after, tokens = before ++ .char '.' :: after ∧ (∀ token ∈ before, token.IsStar) ∧
      Describes false after t := by
  induction tokens with
  | nil => simp [describes_nil_iff]
  | cons token tokens ih =>
      rcases token.isSingle_or_isStar with hsingle | hstar
      · rw [describes_single_cons_iff hsingle, Token.admits_dot_iff hsingle]
        constructor
        · rintro ⟨rfl, hrest⟩
          exact ⟨[], tokens, rfl, by simp, hrest⟩
        · rintro ⟨before, after, htokens, hbefore, hrest⟩
          cases before with
          | nil =>
              obtain ⟨rfl, rfl⟩ := List.cons.inj htokens
              exact ⟨rfl, hrest⟩
          | cons token' before =>
              obtain ⟨rfl, -⟩ := List.cons.inj htokens
              rcases hbefore token List.mem_cons_self with rfl | rfl
              · exact absurd rfl hsingle.1
              · exact absurd rfl hsingle.2
      · rw [describes_star_dot_iff hstar, ih]
        constructor
        · rintro ⟨before, after, rfl, hbefore, hrest⟩
          exact ⟨token :: before, after, rfl, List.forall_mem_cons.mpr ⟨hstar, hbefore⟩, hrest⟩
        · rintro ⟨before, after, htokens, hbefore, hrest⟩
          cases before with
          | nil =>
              obtain ⟨rfl, -⟩ := List.cons.inj htokens
              rcases hstar with h | h <;> cases h
          | cons token' before =>
              obtain ⟨rfl, rfl⟩ := List.cons.inj htokens
              exact ⟨before, after, rfl, (List.forall_mem_cons.mp hbefore).2, hrest⟩

/-- What patterns can be begun with before anything has to be taken: nothing, or `*`, or `**` with a
slash each time but for a `*` at the end. -/
inductive Stars : List Char → Prop
  | nil : Stars []
  | run : Stars ['*']
  | folders {stars : List Char} : Stars stars → Stars ('*' :: '*' :: '/' :: stars)

theorem stars_of_writes (h : Writes boundary (before ++ .char '.' :: after) t)
    (hbefore : ∀ token ∈ before, token.IsStar) :
    ∃ stars rest, t = stars ++ '.' :: rest ∧ Stars stars ∧ Writes false after rest := by
  induction before generalizing boundary t with
  | nil =>
      cases h with
      | char _ hrest => exact ⟨[], _, rfl, .nil, hrest⟩
  | cons token before ih =>
      obtain ⟨hstar, htail⟩ := List.forall_mem_cons.mp hbefore
      rcases hstar with rfl | rfl
      · cases h with
        | anyRun hhead hnext =>
            obtain ⟨stars, rest, rfl, hstars, hrest⟩ := ih hnext htail
            cases hstars with
            | nil => exact ⟨['*'], rest, rfl, .run, hrest⟩
            | run => exact absurd rfl hhead
            | folders _ => exact absurd rfl hhead
      · rw [List.cons_append] at h
        generalize htokens : before ++ Token.char '.' :: after = tokens at h
        cases h with
        | anyFolders hnext =>
            rw [← htokens] at hnext
            obtain ⟨stars, rest, rfl, hstars, hrest⟩ := ih hnext htail
            exact ⟨_, rest, rfl, .folders hstars, hrest⟩
        | allFolders => simp at htokens

theorem writes_of_stars (h : Stars stars) (hrest : Writes false after rest) :
    ∃ before, (∀ token ∈ before, token.IsStar) ∧
      Writes true (before ++ .char '.' :: after) (stars ++ '.' :: rest) := by
  have hdot {boundary : Bool} : Writes boundary (.char '.' :: after) ('.' :: rest) :=
    .char (by decide) hrest
  induction h with
  | nil => exact ⟨[], by simp, hdot⟩
  | run => exact ⟨[.anyRun], by simp [Token.IsStar], .anyRun (by simp) hdot⟩
  | folders _ ih =>
      obtain ⟨before, hbefore, hnext⟩ := ih
      exact ⟨.anyFolders :: before, List.forall_mem_cons.mpr ⟨.inr rfl, hbefore⟩,
        .anyFolders hnext⟩

def DotAndThen (pattern t : List Char) : Prop :=
  ∃ stars rest after, pattern = stars ++ '.' :: rest ∧ Stars stars ∧ Writes false after rest ∧
    Describes false after t

theorem Pattern.names_dot_iff {text name : String} {p : Pattern} (h : parse text = .ok p)
    (hname : name.toList = '.' :: t) : p.Names name ↔ DotAndThen text.toList t := by
  rw [Names, hname, describes_dot_iff]
  constructor
  · rintro ⟨before, after, htokens, hbefore, hafter⟩
    rw [parse_eq_ok_iff, htokens] at h
    obtain ⟨stars, rest, htext, hstars, hrest⟩ := stars_of_writes h hbefore
    exact ⟨stars, rest, after, htext, hstars, hrest, hafter⟩
  · rintro ⟨stars, rest, after, htext, hstars, hrest, hafter⟩
    obtain ⟨before, hbefore, hwrites⟩ := writes_of_stars hstars hrest
    have hparse : parse text = .ok ⟨before ++ .char '.' :: after⟩ := by
      rw [parse_eq_ok_iff, htext]
      exact hwrites
    obtain rfl := Except.ok.inj (h.symm.trans hparse)
    exact ⟨before, after, rfl, hbefore, hafter⟩

end Glob

variable {text name : String} {p : Glob.Pattern}

theorem Injector.compileGlob_eq_ok_iff :
    compileGlob text = .ok p ↔ Glob.Pattern.parse text = .ok p :=
  Fallible.mapError_eq_ok_iff

variable {view : View} {dir : String}

theorem hidden_mem_matchingFiles_iff {t : List Char} (h : Injector.compileGlob text = .ok p)
    (hname : name.toList = '.' :: t) : name ∈ matchingFiles view dir p ↔
      name ∈ (view dir).fileNames ∧ Glob.DotAndThen text.toList t := by
  rw [mem_matchingFiles_iff,
    Glob.Pattern.names_dot_iff (Injector.compileGlob_eq_ok_iff.mp h) hname]

/-- A hidden file is taken only by a pattern that comes to a literal dot before anything has to be
taken: one that starts with the dot, or with stars and then the dot. All others leave every hidden
file alone. -/
theorem hidden_exact (h : Injector.compileGlob text = .ok p) (view : View) (dir : String) :
    (∀ name t, name.toList = '.' :: t → (name ∈ matchingFiles view dir p ↔
      name ∈ (view dir).fileNames ∧ Glob.DotAndThen text.toList t)) ∧
    ((∀ stars rest, Glob.Stars stars → text.toList ≠ stars ++ '.' :: rest) →
      ∀ name ∈ matchingFiles view dir p, name.toList.head? ≠ some '.') := by
  refine ⟨fun name t => hidden_mem_matchingFiles_iff h, fun hapart name htaken hdot => ?_⟩
  obtain ⟨t, hname⟩ := List.head?_eq_some_iff.mp hdot
  obtain ⟨-, stars, rest, -, htext, hstars, -⟩ := (hidden_mem_matchingFiles_iff h hname).mp htaken
  exact hapart stars rest hstars htext

def hiddenFolder : Disk := ⟨[([".env"], .file (.plain ⟨#[]⟩)), (["app.js"], .file (.plain ⟨#[]⟩))]⟩

theorem mem_fileNames_hiddenFolder : ".env" ∈ (hiddenFolder.view [] ".").fileNames :=
  mem_fileNames_view_iff.mpr
    ⟨⟨[], _, Disk.resolve_look_eq_ok_iff.mp rfl, rfl⟩, Disk.isFile_iff.mp (by decide +kernel)⟩

/-- A set that holds the dot does not take it; a star leaves it to the dot that is written next. -/
theorem hidden_exact_env :
    (∃ p, Injector.compileGlob "[.]env" = .ok p ∧
      ".env" ∉ matchingFiles (hiddenFolder.view []) "." p) ∧
    ∃ p, Injector.compileGlob "*.env" = .ok p ∧
      ".env" ∈ matchingFiles (hiddenFolder.view []) "." p := by
  have hset : Injector.compileGlob "[.]env" =
      .ok ⟨[.within [.single '.'], .char 'e', .char 'n', .char 'v']⟩ := rfl
  have hstar : Injector.compileGlob "*.env" =
      .ok ⟨[.anyRun, .char '.', .char 'e', .char 'n', .char 'v']⟩ := rfl
  refine ⟨⟨_, hset, fun htaken => ?_⟩, _, hstar, ?_⟩
  · have hapart : ∀ stars rest, Glob.Stars stars → "[.]env".toList ≠ stars ++ '.' :: rest := by
      intro stars rest hstars htext
      cases hstars <;> cases htext
    exact (hidden_exact hset _ _).2 hapart _ htaken rfl
  · have hwrites : Glob.Writes false [.char 'e', .char 'n', .char 'v'] ['e', 'n', 'v'] :=
      .char (by decide) (.char (by decide) (.char (by decide) .nil))
    have hdescribes : Glob.Describes false [.char 'e', .char 'n', .char 'v'] ['e', 'n', 'v'] :=
      .cons .char (.cons .char (.cons .char .nil))
    exact ((hidden_exact hstar _ _).1 _ _ rfl).mpr
      ⟨mem_fileNames_hiddenFolder, ['*'], _, _, rfl, .run, hwrites, hdescribes⟩

/-- A pattern that does not start with a dot, and yet takes a hidden file. -/
theorem hidden_is_taken : "*.*".toList.head? ≠ some '.' ∧
    ∃ p, Injector.compileGlob "*.*" = .ok p ∧
      ".env" ∈ matchingFiles (hiddenFolder.view []) "." p := by
  have hglob : Injector.compileGlob "*.*" = .ok ⟨[.anyRun, .char '.', .anyRun]⟩ := rfl
  have hnames : (⟨[.anyRun, .char '.', .anyRun]⟩ : Glob.Pattern).Names ".env" :=
    (Glob.Pattern.accepts_iff _ _).mp (by decide +kernel)
  exact ⟨by decide, _, hglob, mem_matchingFiles_iff.mpr ⟨mem_fileNames_hiddenFolder, hnames⟩⟩

end AssetSlots
