import AssetSlots.Command.Request
import AssetSlots.Proofs.Fallible

namespace AssetSlots.Command

namespace Scan

structure Filled (s : Scan) : Prop where
  config : s.config ≠ some ""
  outerConfig : s.outerConfig ≠ some ""
  page : s.page ≠ some ""

namespace Filled

variable {s t : Scan}

theorem start : Scan.start.Filled := ⟨nofun, nofun, nofun⟩

/-- The option of the inner level comes first. -/
theorem config_or (hs : s.Filled) : (s.config <|> s.outerConfig) ≠ some "" := by
  have hconfig := hs.config
  cases hs' : s.config with
  | none => exact hs.outerConfig
  | some path => rwa [hs'] at hconfig

theorem enter (hs : s.Filled) (level : Level) : (s.enter level).Filled where
  config := nofun
  outerConfig := hs.config_or
  page := hs.page

theorem flag (hs : s.Filled) {o : Opt} (h : s.flag o = .ok t) : t.Filled := by
  obtain ⟨hconfig, houter, hpage⟩ := hs
  cases o <;> simp only [Scan.flag, reduceCtorEq] at h
  all_goals
    split at h
    · cases h
    · obtain rfl := Except.ok.inj h
      exact ⟨hconfig, houter, hpage⟩

theorem value (hs : s.Filled) {o : Opt} {v : String} (h : s.value o v = .ok t) : t.Filled := by
  unfold Scan.value at h
  split at h
  · cases h
  · next hv =>
    split at h
    · split at h
      · cases h
      · obtain rfl := Except.ok.inj h
        exact ⟨fun hc => hv (Option.some.inj hc), hs.outerConfig, hs.page⟩
    · split at h
      · cases h
      · obtain rfl := Except.ok.inj h
        exact ⟨hs.config, hs.outerConfig, hs.page⟩
    · cases h

theorem positional (hs : s.Filled) {arg : String} (h : s.positional arg = .ok t) : t.Filled := by
  rw [Scan.positional] at h
  split at h
  · next harg =>
    obtain rfl := Except.ok.inj h
    exact ⟨hs.config, hs.outerConfig, fun hp => harg.2.2 (Option.some.inj hp)⟩
  · cases h

theorem word (hs : s.Filled) {arg : String} (h : s.word arg = .ok t) : t.Filled := by
  unfold Scan.word at h
  split at h
  · obtain rfl := Except.ok.inj h
    exact hs.enter _
  · exact hs.positional h

/-- An option that is complete leaves none to be given a value. -/
theorem of_map_none {r : Except Stop Scan} {o : Option Opt}
    (hr : ∀ {t}, r = .ok t → t.Filled) (h : r.map (fun s => (s, none)) = .ok (t, o)) :
    t.Filled := by
  obtain ⟨t', ht', heq⟩ := Fallible.of_map h
  cases heq
  exact hr ht'

theorem named (hs : s.Filled) {arg : List Char} {o : Option Opt} (h : s.named arg = .ok (t, o)) :
    t.Filled := by
  unfold Scan.named at h
  split at h
  · cases h
  · dsimp only at h
    split at h
    · cases h
      exact hs
    · exact of_map_none hs.value h
    · exact of_map_none hs.flag h
    · cases h

theorem lettered (hs : s.Filled) {arg : List Char} {o : Option Opt}
    (h : s.lettered arg = .ok (t, o)) : t.Filled := by
  induction arg generalizing s with
  | nil =>
      cases h
      exact hs
  | cons c letters ih =>
      rw [Scan.lettered] at h
      split at h
      · cases h
      · split at h
        · split at h
          · cases h
            exact hs
          · exact of_map_none hs.value h
          · exact of_map_none hs.value h
        · split at h
          · next hflag => exact ih (hs.flag hflag) h
          · cases h

theorem argument (hs : s.Filled) {arg : String} {o : Option Opt}
    (h : s.argument arg = .ok (t, o)) : t.Filled := by
  unfold Scan.argument at h
  split at h
  · exact hs.named h
  · exact hs.lettered h
  · exact of_map_none hs.word h

theorem arguments (hs : s.Filled) {args : List String} (h : s.arguments args = .ok t) :
    t.Filled := by
  -- One argument after the other; behind `--` there are only positional ones.
  fun_induction Scan.arguments s args with
  | case1 s =>
      obtain rfl := Except.ok.inj h
      exact hs
  | case2 s rest =>
      exact Fallible.keeps_of_foldlM_ok (fun _ _ _ _ hb hstep => hb.positional hstep) hs h
  | case5 s arg rest _ _ s' harg ih => exact ih (hs.argument harg) h
  | case8 s arg _ _ s' o harg v rest _ s'' hvalue ih => exact ih ((hs.argument harg).value hvalue) h
  | case3 | case4 | case6 | case7 | case9 => cases h

end Filled

variable {s : Scan}

theorem arguments_option {o : Opt} {name v : String} (hname : '=' ∉ name.toList)
    (ho : Opt.ofName? s.level name = some o) (htakes : o.takesValue) {t : Scan}
    (hv : s.value o v = .ok t) (rest : List String) :
    s.arguments (("--" ++ name ++ "=" ++ v) :: rest) = t.arguments rest := by
  have htext : ("--" ++ name ++ "=" ++ v).toList =
      '-' :: '-' :: (name.toList ++ '=' :: v.toList) := by
    simp
  have hdash : "--" ++ name ++ "=" ++ v ≠ "--" := by
    rw [ne_eq, ← String.toList_inj, htext]
    simp
  have hhelp : "--" ++ name ++ "=" ++ v ≠ "help" := by
    rw [ne_eq, ← String.toList_inj, htext]
    simp
  have hnamed : s.argument ("--" ++ name ++ "=" ++ v) = .ok (t, none) := by
    have hplain : ∀ c ∈ name.toList, decide (c ≠ '=') = true := by
      intro c hc
      exact decide_eq_true fun heq => hname (heq ▸ hc)
    have hfront : (name.toList ++ '=' :: v.toList).takeWhile (· ≠ '=') = name.toList := by
      rw [List.takeWhile_append_of_pos hplain, List.takeWhile_cons_of_neg (by simp),
        List.append_nil]
    have hback : (name.toList ++ '=' :: v.toList).dropWhile (· ≠ '=') = '=' :: v.toList := by
      rw [List.dropWhile_append_of_pos hplain, List.dropWhile_cons_of_neg (by simp)]
    rw [argument, htext]
    simp only [named, hfront, hback, String.ofList_toList, ho, htakes, hv]
    rfl
  rw [arguments, if_neg hdash, if_neg (fun h => hhelp h.1), hnamed]

theorem arguments_word {arg : String} {level : Level}
    (h : s.level.subcommand? arg = some level) (rest : List String) :
    s.arguments (arg :: rest) = (s.enter level).arguments rest := by
  have harg : arg ≠ "--" ∧ arg ≠ "help" ∧
      s.argument arg = (s.word arg).map fun s => (s, none) := by
    unfold Level.subcommand? at h
    split at h
    case h_6 => cases h
    all_goals exact ⟨by decide, by decide, rfl⟩
  obtain ⟨hdash, hhelp, hword⟩ := harg
  rw [arguments, if_neg hdash, if_neg (fun h => hhelp h.1), hword, word, h]
  rfl

theorem arguments_page (hlevel : s.level = .render) (hnone : s.page = none) {page : String}
    (hpage : page ≠ "") : s.arguments ["--", page] = .ok { s with page := some page } := by
  rw [arguments, if_pos rfl, List.foldlM_cons, positional, if_pos ⟨hlevel, hnone, hpage⟩]
  rfl

def configWords : Option String → List String
  | some path => ["--config=" ++ path]
  | none => []

theorem arguments_configWords {config : Option String} (hconfig : config ≠ some "")
    (rest : List String) : start.arguments (configWords config ++ rest) =
      { start with config := config }.arguments rest := by
  cases config with
  | none => rfl
  | some path =>
    have hpath : path ≠ "" := fun h => hconfig (congrArg some h)
    have hvalue : start.value .config path = .ok { start with config := some path } := by
      rw [value, if_neg hpath]
      rfl
    have hoption : start.arguments (("--" ++ "config" ++ "=" ++ path) :: rest) =
        { start with config := some path }.arguments rest :=
      arguments_option (by decide) rfl rfl hvalue rest
    exact hoption

end Scan

def Action.words : Action → List String
  | render page none => ["render", "--", page]
  | render page (some out) => ["render", "--output=" ++ out, "--", page]
  | staticPaths => ["static-paths"]
  | showConfig => ["config", "show"]
  | validateConfig => ["config", "validate"]

def Action.Filled : Action → Prop
  | render page output => page ≠ "" ∧ output ≠ some ""
  | _ => True

namespace Request

theorem ofArguments_spell {config : Option String} (hconfig : config ≠ some "") {a : Action}
    (ha : a.Filled) : ofArguments (Scan.configWords config ++ a.words) =
      .ok ⟨config, false, false, some a⟩ := by
  rw [ofArguments, Scan.arguments_configWords hconfig]
  cases a with
  | render page output =>
      obtain ⟨hpage, houtput⟩ := ha
      cases output with
      | none =>
          rw [Action.words, Scan.arguments_word rfl, Scan.arguments_page rfl rfl hpage]
          cases config <;> rfl
      | some out =>
          have hout : out ≠ "" := fun h => houtput (congrArg some h)
          have hvalue (s : Scan) (hs : s.output = none) :
              s.value .output out = .ok { s with output := some out } := by
            rw [Scan.value, if_neg hout]
            simp only [hs, Option.isSome_none, Bool.false_eq_true, if_false]
          have hwords : (Action.render page (some out)).words =
              ["render", "--" ++ "output" ++ "=" ++ out, "--", page] := rfl
          rw [hwords, Scan.arguments_word rfl,
            Scan.arguments_option (by decide) rfl rfl (hvalue _ rfl),
            Scan.arguments_page rfl rfl hpage]
          cases config <;> rfl
  | staticPaths =>
      rw [Action.words, Scan.arguments_word rfl]
      cases config <;> rfl
  | showConfig =>
      rw [Action.words, Scan.arguments_word rfl, Scan.arguments_word rfl]
      cases config <;> rfl
  | validateConfig =>
      rw [Action.words, Scan.arguments_word rfl, Scan.arguments_word rfl]
      cases config <;> rfl

structure Proper (r : Request) : Prop where
  config : r.config ≠ some ""
  page : ∀ page output, r.action = some (.render page output) → page ≠ ""
  force : r.force → r.init

theorem proper_of_ofArguments {args : List String} {r : Request} (h : ofArguments args = .ok r) :
    r.Proper := by
  obtain ⟨s, hs, h⟩ := Fallible.of_bind h
  obtain ⟨a, ha, h⟩ := Fallible.of_bind h
  have hfilled := Scan.Filled.start.arguments hs
  obtain ⟨hforce, rfl⟩ : (s.force → s.init) ∧
      r = ⟨s.config <|> s.outerConfig, s.init, s.force, a⟩ := by
    split at h
    · cases h
    · next hforce => exact ⟨by simpa using hforce, (Except.ok.inj h).symm⟩
  refine ⟨hfilled.config_or, ?_, hforce⟩
  rintro page output rfl rfl
  unfold Scan.action at ha
  split at ha
  case h_2 =>
      split at ha
      · next hpage =>
        cases ha
        exact hfilled.page hpage
      · cases ha
  case h_1 => split at ha <;> cases ha
  all_goals cases ha

end Request

end AssetSlots.Command
