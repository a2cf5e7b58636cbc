import AssetSlots.Proofs.Command.Running
import AssetSlots.Proofs.Disk.Reading

namespace AssetSlots.Command

structure Accepted (d : Disk) (cwd : Location) (config : Option String) (s : Settings)
    (site : Site) : Prop where
  load : Settings.load (d.view cwd) (Disk.absolute cwd) config = .ok s
  build : Site.build s.rules s.table = .ok site

inductive Refused (d : Disk) (cwd : Location) (config : Option String) : String → Error → Prop
  | load {e : Error} (h : Settings.load (d.view cwd) (Disk.absolute cwd) config = .error e) :
      Refused d cwd config "Failed to load configuration" e
  | build {s : Settings} {e : Error}
      (hload : Settings.load (d.view cwd) (Disk.absolute cwd) config = .ok s)
      (hbuild : Site.build s.rules s.table = .error e) :
      Refused d cwd config "Invalid stacker configuration" e

variable {d : Disk} {cwd : Location} {config : Option String} {context : String} {e : Error}
  {s : Settings} {site : Site} {args : List String} {stdin : ByteArray}

theorem accepted_or_refused (d : Disk) (cwd : Location) (config : Option String) :
    (∃ s site, Accepted d cwd config s site) ∨ ∃ context e, Refused d cwd config context e := by
  rcases hload : Settings.load (d.view cwd) (Disk.absolute cwd) config with e | s
  · exact .inr ⟨_, e, .load hload⟩
  · rcases hbuild : Site.build s.rules s.table with e | site
    · exact .inr ⟨_, e, .build hload hbuild⟩
    · exact .inl ⟨s, site, hload, hbuild⟩

theorem settings_of_ok
    (h : Settings.load (d.view cwd) (Disk.absolute cwd) config = .ok s) :
    (Setting.here d cwd stdin).settings config = .ok s := by
  rw [Setting.settings, Setting.here, h]
  rfl

theorem settings_of_error
    (h : Settings.load (d.view cwd) (Disk.absolute cwd) config = .error e) :
    (Setting.here d cwd stdin).settings config =
      .error (.ofError "Failed to load configuration" e) := by
  rw [Setting.settings, Setting.here, h]
  rfl

theorem site_of_accepted (h : Accepted d cwd config s site) :
    (Setting.here d cwd stdin).site config = .ok site := by
  rw [Setting.site, settings_of_ok h.load]
  change (Site.build s.rules s.table).mapError _ = _
  rw [h.build]
  rfl

theorem site_of_refused (h : Refused d cwd config context e) :
    (Setting.here d cwd stdin).site config = .error (.ofError context e) := by
  cases h with
  | load hload =>
      rw [Setting.site, settings_of_error hload]
      rfl
  | @build s _ hload hbuild =>
      rw [Setting.site, settings_of_ok hload]
      change (Site.build s.rules s.table).mapError _ = _
      rw [hbuild]
      rfl

section Refusals

theorem validate_of_refused (h : Refused d cwd config context e)
    (hargs : Asks args config .validateConfig) :
    run d cwd args stdin = (⟨1, "", "Configuration error: " ++ e.message ++ "\n"⟩, d) := by
  have hline : lines ["Configuration error: " ++ e.message] =
      "Configuration error: " ++ e.message ++ "\n" := by
    simp [lines, String.join]
  rw [run_of_asks hargs, Plan.ofAction]
  cases h with
  | load hload =>
      simp only [Plan.validateConfig, Setting.here, hload, bind, Except.bind, hline, Plan.perform]
  | build hload hbuild =>
      simp only [Plan.validateConfig, Setting.here, hload, hbuild, bind, Except.bind, hline,
        Plan.perform]

theorem static_of_refused (h : Refused d cwd config context e)
    (hargs : Asks args config .staticPaths) :
    run d cwd args stdin = ((Failure.ofError context e).outcome, d) := by
  rw [run_of_asks hargs, Plan.ofAction, Plan.staticPaths, site_of_refused h]
  rfl

/-- Neither the page nor what is on standard input has a part in a refusal. -/
theorem render_of_refused (h : Refused d cwd config context e) {page : String}
    {output : Option String} (hargs : Asks args config (.render page output)) :
    run d cwd args stdin = ((Failure.ofError context e).outcome, d) := by
  rw [run_of_asks hargs, Plan.ofAction, Plan.render, site_of_refused h]
  rfl

theorem show_of_error
    (h : Settings.load (d.view cwd) (Disk.absolute cwd) config = .error e)
    (hargs : Asks args config .showConfig) :
    run d cwd args stdin =
      ((Failure.ofError "Failed to load configuration" e).outcome, d) := by
  rw [run_of_asks hargs, Plan.ofAction, Plan.showConfig, settings_of_error h]
  rfl

end Refusals

section Successes

theorem validate_of_accepted (h : Accepted d cwd config s site)
    (hargs : Asks args config .validateConfig) : (run d cwd args stdin).1.exit = 0 := by
  rw [run_of_asks hargs, Plan.ofAction]
  simp only [Plan.validateConfig, Setting.here, h.load, h.build, bind, Except.bind]
  rfl

theorem static_of_accepted (h : Accepted d cwd config s site)
    (hargs : Asks args config .staticPaths) : (run d cwd args stdin).1.exit = 0 := by
  rw [run_of_asks hargs, Plan.ofAction, Plan.staticPaths, site_of_accepted h]
  rfl

theorem render_of_accepted (h : Accepted d cwd config s site) {page : String}
    (hpage : PathText.isDash page) (hargs : Asks args config (.render page none)) (text : String) :
    run d cwd args text.toUTF8 = (.success (site.render (d.view cwd) text), d) := by
  have hread : (Setting.here d cwd text.toUTF8).page page = .ok text := by
    rw [Setting.page, if_pos hpage, Setting.here, decode_eq_ok_iff.mpr rfl]
    rfl
  rw [run_of_asks hargs, Plan.ofAction, Plan.render, site_of_accepted h, hread]
  rfl

theorem show_of_ok
    (h : Settings.load (d.view cwd) (Disk.absolute cwd) config = .ok s)
    (hargs : Asks args config .showConfig) : (run d cwd args stdin).1.exit = 0 := by
  rw [run_of_asks hargs, Plan.ofAction, Plan.showConfig, settings_of_ok h]
  rfl

end Successes

/-- Checking a configuration tells whether it can be used: what is accepted is accepted by the
commands that work with it, and what is refused is refused by them for the same error. -/
theorem commands_agree (d : Disk) (cwd : Location) (config : Option String)
    {validate static shown render : List String} {page : String}
    (hvalidate : Asks validate config .validateConfig) (hstatic : Asks static config .staticPaths)
    (hshow : Asks shown config .showConfig) (hpage : PathText.isDash page)
    (hrender : Asks render config (.render page none)) (i j k : ByteArray) :
    ((run d cwd validate i).1.exit = 0 ↔ (run d cwd static j).1.exit = 0) ∧
    ((run d cwd validate i).1.exit = 0 ↔
      ∀ text : String, (run d cwd render text.toUTF8).1.exit = 0) ∧
    ((run d cwd validate i).1.exit ≠ 0 → ∃ context e, Refused d cwd config context e ∧
      run d cwd validate i = (⟨1, "", "Configuration error: " ++ e.message ++ "\n"⟩, d) ∧
      run d cwd static j = ((Failure.ofError context e).outcome, d) ∧
      ∀ args page output stdin, Asks args config (.render page output) →
        run d cwd args stdin = ((Failure.ofError context e).outcome, d)) ∧
    ((run d cwd validate i).1.exit = 0 → (run d cwd shown k).1.exit = 0) ∧
    ((run d cwd shown k).1.exit ≠ 0 → ∃ e,
      Settings.load (d.view cwd) (Disk.absolute cwd) config = .error e ∧
      run d cwd shown k = ((Failure.ofError "Failed to load configuration" e).outcome, d) ∧
      run d cwd validate i = (⟨1, "", "Configuration error: " ++ e.message ++ "\n"⟩, d)) := by
  have herror : (run d cwd shown k).1.exit ≠ 0 → ∃ e,
      Settings.load (d.view cwd) (Disk.absolute cwd) config = .error e := by
    intro hexit
    rcases hload : Settings.load (d.view cwd) (Disk.absolute cwd) config with e | s
    · exact ⟨e, rfl⟩
    · exact absurd (show_of_ok hload hshow) hexit
  -- Whether the configuration is accepted is settled before the commands part.
  rcases accepted_or_refused d cwd config with ⟨s, site, hok⟩ | ⟨context, e, hbad⟩
  · have hv : (run d cwd validate i).1.exit = 0 := validate_of_accepted hok hvalidate
    have hs : (run d cwd static j).1.exit = 0 := static_of_accepted hok hstatic
    have hr (text : String) : (run d cwd render text.toUTF8).1.exit = 0 := by
      rw [render_of_accepted hok hpage hrender]
      rfl
    have hw : (run d cwd shown k).1.exit = 0 := show_of_ok hok.load hshow
    exact ⟨iff_of_true hv hs, iff_of_true hv hr, absurd hv, fun _ => hw, absurd hw⟩
  · have hv : run d cwd validate i = _ := validate_of_refused hbad hvalidate
    have hs : run d cwd static j = _ := static_of_refused hbad hstatic
    have hr (text : String) : run d cwd render text.toUTF8 = _ := render_of_refused hbad hrender
    refine ⟨?_, ?_, ?_, ?_, ?_⟩
    · simp [hv, hs, Failure.outcome]
    · refine iff_of_false (by simp [hv]) fun hall => ?_
      have hexit := hall ""
      rw [hr] at hexit
      cases hexit
    · exact fun _ => ⟨context, e, hbad, hv, hs, fun _ _ _ _ => render_of_refused hbad⟩
    · simp [hv]
    · intro hexit
      obtain ⟨e', hload⟩ := herror hexit
      exact ⟨e', hload, show_of_error hload hshow, validate_of_refused (.load hload) hvalidate⟩

/-- Without a configuration file every page can be rendered. If one is asked for that is missing,
the page is not even looked at. -/
theorem commands_agree_missing :
    (∀ text : String, (run .empty [] ["render", "-"] text.toUTF8).1.exit = 0) ∧
      ∃ context e, Refused .empty [] (some "none") context e ∧
        run .empty [] ["--config", "none", "render", "page.html"] ⟨#[0xff]⟩ =
          ((Failure.ofError context e).outcome, .empty) := by
  have hpage : PathText.isDash "-" := by decide +kernel
  have hvalidate : Asks ["config", "validate"] none .validateConfig := by rfl
  have hstatic : Asks ["static-paths"] none .staticPaths := by rfl
  have hshow : Asks ["config", "show"] none .showConfig := by rfl
  have hrender : Asks ["render", "-"] none (.render "-" none) := by rfl
  have hvalidate' : Asks ["--config", "none", "config", "validate"] (some "none")
      .validateConfig := by rfl
  have hstatic' : Asks ["--config", "none", "static-paths"] (some "none") .staticPaths := by rfl
  have hshow' : Asks ["--config", "none", "config", "show"] (some "none") .showConfig := by rfl
  have hrender' : Asks ["--config", "none", "render", "-"] (some "none") (.render "-" none) := by rfl
  have hnear := commands_agree .empty [] none hvalidate hstatic hshow hpage hrender
    ⟨#[]⟩ ⟨#[]⟩ ⟨#[]⟩
  have hasked := commands_agree .empty [] (some "none") hvalidate' hstatic' hshow' hpage hrender'
    ⟨#[]⟩ ⟨#[]⟩ ⟨#[]⟩
  have hvalid : (run .empty [] ["static-paths"] ⟨#[]⟩).1.exit = 0 := by decide +kernel
  have hrefused : (run .empty [] ["--config", "none", "config", "validate"] ⟨#[]⟩).1.exit ≠ 0 := by
    decide +kernel
  refine ⟨hnear.2.1.mp (hnear.1.mpr hvalid), ?_⟩
  obtain ⟨context, e, hbad, _, _, hpages⟩ := hasked.2.2.1 hrefused
  exact ⟨context, e, hbad, hpages _ "page.html" none _ (by rfl)⟩

end AssetSlots.Command
