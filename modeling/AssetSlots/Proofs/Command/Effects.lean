import AssetSlots.Proofs.Command.Running
import AssetSlots.Proofs.Disk.Writing

namespace AssetSlots.Command

variable {d : Disk} {cwd : Location} {args args' : List String} {stdin : ByteArray} {r : Request}
  {config : Option String} {page : String}

/-- A write succeeds and is told as such, or has no effect. -/
theorem perform_write (d : Disk) (cwd : Location) (path text : String) (done : Outcome)
    (failed : Fault → Outcome) :
    (∃ d', d.write cwd path text.toUTF8 = .ok d' ∧
      (Plan.write path text done failed).perform d cwd = (done, d')) ∨
    ∃ cause, (Plan.write path text done failed).perform d cwd = (failed cause, d) := by
  rcases h : d.write cwd path text.toUTF8 with cause | d'
  · exact .inr ⟨cause, by simp only [Plan.perform, h]⟩
  · exact .inl ⟨d', rfl, by simp only [Plan.perform, h]⟩

/-- There is at most one write in a run. -/
theorem run_writes (d : Disk) (cwd : Location) (args : List String) (stdin : ByteArray) :
    (run d cwd args stdin).2 = d ∨
      ∃ path bytes, d.write cwd path bytes = .ok (run d cwd args stdin).2 := by
  rw [run]
  cases Plan.ofArguments ⟨d.view cwd, Disk.absolute cwd, stdin⟩ args with
  | finish o => exact .inl rfl
  | write path text done failed =>
      rcases perform_write d cwd path text done failed with ⟨d', hwrite, hrun⟩ | ⟨cause, hrun⟩
      · rw [hrun]
        exact .inr ⟨path, _, hwrite⟩
      · rw [hrun]
        exact .inl rfl

/-- A page that can be rendered is rendered to one text, wherever that goes; one that cannot is told
about in the same way. -/
theorem render_cases (env : Setting) (config : Option String) (page : String) :
    (∃ text, Plan.render env config page none = .finish (.success text) ∧ ∀ out,
      Plan.render env config page (some out) =
        .write out text (.success "") (writeFailed out)) ∨
    ∃ f : Failure, ∀ output, Plan.render env config page output = .finish f.outcome := by
  unfold Plan.render
  rcases env.site config with f | site
  · exact .inr ⟨f, fun _ => rfl⟩
  · rcases env.page page with f | text
    · exact .inr ⟨f, fun _ => rfl⟩
    · exact .inl ⟨site.render env.view text, rfl, fun _ => rfl⟩

theorem ofAction_finishes (env : Setting) (config : Option String) {a : Action}
    (h : ∀ page out, a ≠ .render page (some out)) :
    ∃ o, Plan.ofAction env config a = .finish o := by
  cases a with
  | render page output =>
      cases output with
      | some out => exact absurd rfl (h page out)
      | none =>
          rcases render_cases env config page with ⟨text, hplan, _⟩ | ⟨f, hplan⟩
          · exact ⟨_, hplan⟩
          · exact ⟨_, hplan none⟩
  | staticPaths =>
      rw [Plan.ofAction, Plan.staticPaths]
      rcases env.site config with f | site
      · exact ⟨_, rfl⟩
      · exact ⟨_, rfl⟩
  | showConfig =>
      rw [Plan.ofAction, Plan.showConfig]
      rcases env.settings config with f | s
      · exact ⟨_, rfl⟩
      · exact ⟨_, rfl⟩
  | validateConfig =>
      rw [Plan.ofAction, Plan.validateConfig]
      split
      · exact ⟨_, rfl⟩
      · exact ⟨_, rfl⟩

theorem run_quiet (h : Request.ofArguments args = .ok r) (hinit : r.init = false)
    (haction : ∀ page out, r.action ≠ some (.render page (some out))) :
    (run d cwd args stdin).2 = d := by
  rw [run_of_request h, Plan.ofRequest, if_neg (by simp [hinit])]
  rcases hr : r.action with _ | a
  · rfl
  · obtain ⟨o, ho⟩ := ofAction_finishes (.here d cwd stdin) r.config
      fun page out ha => haction page out (hr.trans (congrArg some ha))
    simp only [ho, Plan.perform]

theorem run_init (h : Request.ofArguments args = .ok r) (hinit : r.init) :
    (∃ o, o.exit ≠ 0 ∧ run d cwd args stdin = (o, d)) ∨
    ∃ d', d.write cwd Config.fileName Config.starter.toUTF8 = .ok d' ∧
      (r.force = false → (d.view cwd Config.fileName).exists? = false) ∧
      run d cwd args stdin = (.success (lines ["Created " ++ Config.fileName]), d') := by
  rw [run_of_request h, Plan.ofRequest, if_pos hinit, Plan.init]
  split
  · exact .inl ⟨_, Nat.one_ne_zero, rfl⟩
  · next hnew =>
    rcases perform_write d cwd Config.fileName Config.starter
      (.success (lines ["Created " ++ Config.fileName])) (writeFailed Config.fileName) with
      ⟨d', hwrite, hrun⟩ | ⟨cause, hrun⟩
    · refine .inr ⟨d', hwrite, fun hforce => ?_, hrun⟩
      simpa [hforce, Setting.here] using hnew
    · exact .inl ⟨_, Nat.one_ne_zero, hrun⟩

theorem run_of_render {output : Option String} (h : Request.ofArguments args = .ok r)
    (hinit : r.init = false) (haction : r.action = some (.render page output)) :
    run d cwd args stdin =
      (Plan.render (.here d cwd stdin) r.config page output).perform d cwd := by
  rw [run_of_request h, Plan.ofRequest, if_neg (by simp [hinit]), haction]
  rfl

theorem run_output {out : String} (h : Request.ofArguments args = .ok r) (hinit : r.init = false)
    (haction : r.action = some (.render page (some out)))
    (h' : Request.ofArguments args' = .ok { r with action := some (.render page none) }) :
    (∃ o, o.exit ≠ 0 ∧ run d cwd args stdin = (o, d)) ∨
    ∃ text d', d.write cwd out text.toUTF8 = .ok d' ∧ run d cwd args stdin = (.success "", d') ∧
      run d cwd args' stdin = (.success text, d) := by
  rw [run_of_render h hinit haction, run_of_render h' hinit rfl]
  rcases render_cases (.here d cwd stdin) r.config page with ⟨text, hnone, hsome⟩ | ⟨f, hfail⟩
  · rw [hsome, hnone]
    rcases perform_write d cwd out text (.success "") (writeFailed out) with
      ⟨d', hwrite, hrun⟩ | ⟨cause, hrun⟩
    · exact .inr ⟨text, d', hwrite, hrun, rfl⟩
    · exact .inl ⟨_, Nat.one_ne_zero, hrun⟩
  · rw [hfail]
    exact .inl ⟨_, Nat.one_ne_zero, rfl⟩

/-- What a page on standard input comes to is the same as for a file with the same bytes, but for
the name that a fault is told under. -/
theorem run_piped {dash : String} {bytes : ByteArray} {output : Option String}
    (h : Asks args config (.render page output)) (hpage : PathText.isDash page = false)
    (hbytes : d.read cwd page = .ok bytes)
    (h' : Asks args' config (.render dash output)) (hdash : PathText.isDash dash) :
    (run d cwd args' bytes).1.exit = (run d cwd args stdin).1.exit ∧
      (run d cwd args' bytes).1.stdout = (run d cwd args stdin).1.stdout ∧
      (run d cwd args' bytes).2 = (run d cwd args stdin).2 := by
  have hsite : (Setting.here d cwd bytes).site config =
      (Setting.here d cwd stdin).site config := rfl
  have hfile : (Setting.here d cwd stdin).page page =
      (decode bytes).mapError (Failure.ofFault ("Failed to read " ++ page)) := by
    have htext : (d.view cwd page).text = decode bytes := by
      rw [Disk.text_view, hbytes]
      rfl
    rw [Setting.page, if_neg (by simp [hpage]), Setting.here, htext]
  have hstdin : (Setting.here d cwd bytes).page dash =
      (decode bytes).mapError (Failure.ofFault "Failed to read stdin") := by
    rw [Setting.page, if_pos hdash, Setting.here]
  rw [run_of_render h rfl rfl, run_of_render h' rfl rfl, Plan.render, Plan.render, hsite, hfile,
    hstdin]
  rcases (Setting.here d cwd stdin).site config with f | site
  · exact ⟨rfl, rfl, rfl⟩
  · rcases decode bytes with cause | text
    · exact ⟨rfl, rfl, rfl⟩
    · exact ⟨rfl, rfl, rfl⟩

theorem exists_plain {out : String} (h : Request.ofArguments args = .ok r) (hinit : r.init = false)
    (haction : r.action = some (.render page (some out))) :
    ∃ plain, Request.ofArguments plain = .ok { r with action := some (.render page none) } := by
  have hproper := Request.proper_of_ofArguments h
  have hforce : r.force = false := by
    have himplies := hproper.force
    rw [hinit] at himplies
    simpa using himplies
  have hplain : { r with action := some (.render page none) } =
      (⟨r.config, false, false, some (.render page none)⟩ : Request) := by rw [hinit, hforce]
  refine ⟨Scan.configWords r.config ++ (Action.render page none).words, ?_⟩
  rw [hplain]
  exact Request.ofArguments_spell hproper.config ⟨hproper.page page _ haction, nofun⟩

theorem run_failed (h : Request.ofArguments args = .ok r)
    (hexit : (run d cwd args stdin).1.exit ≠ 0) : (run d cwd args stdin).2 = d := by
  -- Only two kinds of requests write at all, and they tell of a success when they have written.
  by_cases hinit : r.init
  · rcases run_init h hinit with ⟨o, _, hrun⟩ | ⟨d', _, _, hrun⟩
    · rw [hrun]
    · rw [hrun] at hexit
      exact absurd rfl hexit
  · rw [Bool.not_eq_true] at hinit
    by_cases haction : ∃ page out, r.action = some (.render page (some out))
    · obtain ⟨page, out, haction⟩ := haction
      obtain ⟨plain, hplain⟩ := exists_plain h hinit haction
      rcases run_output h hinit haction hplain with ⟨o, _, hrun⟩ | ⟨text, d', _, hrun, _⟩
      · rw [hrun]
      · rw [hrun] at hexit
        exact absurd rfl hexit
    · exact run_quiet h hinit fun page out ha => haction ⟨page, out, ha⟩

/-- What a run may do to the disk. A page that it writes is the one that the same command prints
without the option. -/
structure Frame (d : Disk) (cwd : Location) (args : List String) (stdin : ByteArray) : Prop where
  failed : (run d cwd args stdin).1.exit ≠ 0 → (run d cwd args stdin).2 = d
  quiet : (∀ r, Request.ofArguments args = .ok r →
      r.init = false ∧ ∀ page out, r.action ≠ some (.render page (some out))) →
    (run d cwd args stdin).2 = d
  made : ∀ r, Request.ofArguments args = .ok r → r.init → (run d cwd args stdin).1.exit = 0 →
    d.Rewrites cwd Config.fileName Config.starter.toUTF8 (run d cwd args stdin).2
  kept : ∀ r, Request.ofArguments args = .ok r → r.init → r.force = false →
    ∀ loc item, d.at? loc = some item → (run d cwd args stdin).2.at? loc = some item
  rendered : ∀ r page out, Request.ofArguments args = .ok r → r.init = false →
    r.action = some (.render page (some out)) → (run d cwd args stdin).1.exit = 0 →
    (run d cwd args stdin).1.stdout = "" ∧
      (∃ plain, Request.ofArguments plain = .ok { r with action := some (.render page none) }) ∧
      ∀ plain, Request.ofArguments plain = .ok { r with action := some (.render page none) } →
        (run d cwd plain stdin).1.exit = 0 ∧ (run d cwd plain stdin).2 = d ∧
          d.Rewrites cwd out (run d cwd plain stdin).1.stdout.toUTF8 (run d cwd args stdin).2
  piped : ∀ config page output bytes piped dash, Asks args config (.render page output) →
    PathText.isDash page = false → d.read cwd page = .ok bytes →
    Asks piped config (.render dash output) → PathText.isDash dash →
    (run d cwd piped bytes).1.exit = (run d cwd args stdin).1.exit ∧
      (run d cwd piped bytes).1.stdout = (run d cwd args stdin).1.stdout ∧
      (run d cwd piped bytes).2 = (run d cwd args stdin).2

/-- A run changes the disk as it is told to, and not at all if it fails. -/
theorem changes_as_told (d : Disk) (cwd : Location) (args : List String) (stdin : ByteArray) :
    Frame d cwd args stdin where
  failed hexit := by
    rcases h : Request.ofArguments args with stop | r
    · exact run_of_stop h
    · exact run_failed h hexit
  quiet hquiet := by
    rcases h : Request.ofArguments args with stop | r
    · exact run_of_stop h
    · obtain ⟨hinit, haction⟩ := hquiet r h
      exact run_quiet h hinit haction
  made r h hinit hexit := by
    rcases run_init h hinit with ⟨o, ho, hrun⟩ | ⟨d', hwrite, _, hrun⟩
    · rw [hrun] at hexit
      exact absurd hexit ho
    · rw [hrun]
      exact Disk.rewrites_of_write hwrite
  kept r h hinit hforce loc item hitem := by
    rcases run_init h hinit with ⟨o, ho, hrun⟩ | ⟨d', hwrite, hnew, hrun⟩
    · rw [hrun]
      exact hitem
    · rw [hrun]
      exact Disk.write_keeps (hnew hforce) hwrite hitem
  rendered r page out h hinit haction hexit := by
    refine ⟨?_, exists_plain h hinit haction, fun plain hplain => ?_⟩
    · obtain ⟨plain, hplain⟩ := exists_plain h hinit haction
      rcases run_output h hinit haction hplain with ⟨o, ho, hrun⟩ | ⟨text, d', _, hrun, _⟩
      · rw [hrun] at hexit
        exact absurd hexit ho
      · rw [hrun]
        rfl
    · rcases run_output h hinit haction hplain with ⟨o, ho, hrun⟩ | ⟨text, d', hwrite, hrun, hprint⟩
      · rw [hrun] at hexit
        exact absurd hexit ho
      · rw [hrun, hprint]
        exact ⟨rfl, rfl, Disk.rewrites_of_write hwrite⟩
  piped _ _ _ _ _ _ h hpage hbytes h' hdash := run_piped h hpage hbytes h' hdash

def linkedDisk : Disk :=
  ⟨[(["page.html"], .file (.plain "<p>".toUTF8)), (["out.html"], .link "page.html"),
    ([".scriptstacker.toml"], .link "main.toml")]⟩

/-- The page is written over, and the file to start from is made behind the other link. -/
theorem changes_as_told_linked :
    linkedDisk.Rewrites [] "out.html"
        (run linkedDisk [] ["render", "page.html"] ⟨#[]⟩).1.stdout.toUTF8
        (run linkedDisk [] ["render", "page.html", "--output", "out.html"] ⟨#[]⟩).2 ∧
      (run linkedDisk [] ["render", "-"] "<p>".toUTF8).1.stdout =
        (run linkedDisk [] ["render", "page.html"] ⟨#[]⟩).1.stdout ∧
      linkedDisk.Rewrites [] Config.fileName Config.starter.toUTF8
        (run linkedDisk [] ["--init"] ⟨#[]⟩).2 ∧
      (run linkedDisk [] ["--init"] ⟨#[]⟩).2.at? ["page.html"] = some (.file (.plain "<p>".toUTF8)) ∧
      (run linkedDisk [] ["render", "page.html", "--output", "none/out.html"] ⟨#[]⟩).2 =
        linkedDisk := by
  have hwritten := changes_as_told linkedDisk []
    ["render", "page.html", "--output", "out.html"] ⟨#[]⟩
  have hprinted := changes_as_told linkedDisk [] ["render", "page.html"] ⟨#[]⟩
  have hmade := changes_as_told linkedDisk [] ["--init"] ⟨#[]⟩
  have hfailed := changes_as_told linkedDisk []
    ["render", "page.html", "--output", "none/out.html"] ⟨#[]⟩
  refine ⟨?_, ?_, ?_, ?_, ?_⟩
  · have hexit : (run linkedDisk [] ["render", "page.html", "--output", "out.html"]
        ⟨#[]⟩).1.exit = 0 := by decide +kernel
    obtain ⟨_, _, hplain⟩ := hwritten.rendered ⟨none, false, false, _⟩ "page.html" "out.html"
      (by rfl) rfl rfl hexit
    exact (hplain ["render", "page.html"] (by rfl)).2.2
  · have hread : linkedDisk.read [] "page.html" = .ok "<p>".toUTF8 := by decide +kernel
    exact (hprinted.piped none "page.html" none _ ["render", "-"] "-" (by rfl) (by decide +kernel)
      hread (by rfl) (by decide +kernel)).2.1
  · exact hmade.made ⟨none, true, false, none⟩ (by rfl) rfl (by decide +kernel)
  · exact hmade.kept ⟨none, true, false, none⟩ (by rfl) rfl rfl _ _ (by rfl)
  · exact hfailed.failed (by decide +kernel)

end AssetSlots.Command
