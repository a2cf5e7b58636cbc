import AssetSlots.Command.Watch
import AssetSlots.Proofs.Command.Running
import AssetSlots.Proofs.Fallible
import AssetSlots.Proofs.Site.Exposure

namespace AssetSlots

section Views

variable {view view' : View}

theorem Config.ofFile_congr_view {path : String} (h : view path = view' path) :
    ofFile view path = ofFile view' path := by
  rw [ofFile, ofFile, h]

theorem Config.discover_congr_view {start : String}
    (h : ∀ path ∈ candidates start, view path = view' path) :
    discover view start = discover view' start := by
  have hfind : (candidates start).find? (fun path => (view path).isFile) =
      (candidates start).find? fun path => (view' path).isFile := by
    apply List.find?_congr
    intro path hpath
    rw [h path hpath]
  rw [discover, discover, hfind]
  cases hnear : (candidates start).find? fun path => (view' path).isFile with
  | none => rfl
  | some path =>
      have hpath : path ∈ candidates start := List.mem_of_find?_eq_some hnear
      simp only [ofFile_congr_view (h path hpath)]

theorem Pipeline.discover_congr_view (p : Pipeline) {t : MountTable}
    (h : ∀ m ∈ t.mounts, view m.source = view' m.source) :
    p.discover view t = p.discover view' t := by
  apply List.map_congr_left
  intro i _
  apply List.flatMap_congr
  intro m hm
  have hsource := h m (MountTable.mem_mounts_iff.mpr ⟨i.kind, hm⟩)
  simp only [Injector.references, matchingFiles, hsource]

end Views

namespace Command

/-- The two settings are alike in all that a request looks at. -/
structure Alike (r : Request) (env env' : Setting) : Prop where
  cwd : env.cwd = env'.cwd
  paths : ∀ path ∈ r.paths env'.cwd, env.view path = env'.view path
  sources : ∀ path ∈ r.sources env', env.view path = env'.view path
  stdin : r.readsInput → env.stdin = env'.stdin

variable {env env' : Setting} {r : Request} {a : Action}

theorem load_congr_view {view view' : View} {cwd : String} (ha : r.action? = some a)
    (h : ∀ path ∈ r.paths cwd, view path = view' path) :
    Settings.load view cwd r.config = Settings.load view' cwd r.config := by
  have hpaths : ∀ path ∈ r.configPaths cwd, view path = view' path := by
    intro path hpath
    apply h
    rw [Request.paths, ha]
    exact List.mem_append_left _ hpath
  rw [Request.configPaths] at hpaths
  cases hconfig : r.config with
  | some path =>
      rw [hconfig] at hpaths
      have hpath := hpaths path (List.mem_singleton.mpr rfl)
      simp only [Settings.load, Config.ofFile_congr_view hpath]
  | none =>
      rw [hconfig] at hpaths
      simp only [Settings.load, Config.discover_congr_view hpaths]

theorem sources_congr_view {view view' : View} {cwd : String} (stdin stdin' : ByteArray)
    (h : ∀ path ∈ r.paths cwd, view path = view' path) :
    r.sources ⟨view, cwd, stdin⟩ = r.sources ⟨view', cwd, stdin'⟩ := by
  cases ha : r.action? with
  | none => simp [Request.sources, ha]
  | some a => simp only [Request.sources, ha, load_congr_view ha h]

namespace Alike

theorem load (h : Alike r env env') (ha : r.action? = some a) :
    Settings.load env.view env.cwd r.config = Settings.load env'.view env'.cwd r.config := by
  rw [h.cwd]
  exact load_congr_view ha h.paths

theorem settings (h : Alike r env env') (ha : r.action? = some a) :
    env.settings r.config = env'.settings r.config := by
  rw [Setting.settings, Setting.settings, h.load ha]

theorem site (h : Alike r env env') (ha : r.action? = some a) :
    env.site r.config = env'.site r.config := by
  rw [Setting.site, Setting.site, h.settings ha]

theorem page {path : String} {output : Option String} (h : Alike r env env')
    (ha : r.action? = some (.render path output)) : env.page path = env'.page path := by
  rw [Setting.page, Setting.page]
  by_cases hdash : PathText.isDash path
  · have hreads : r.readsInput := by simp [Request.readsInput, ha, Action.readsInput, hdash]
    rw [if_pos hdash, if_pos hdash, h.stdin hreads]
  · have hpath : path ∈ r.paths env'.cwd := by simp [Request.paths, ha, Action.pageFile?, hdash]
    rw [if_neg hdash, if_neg hdash, h.paths path hpath]

end Alike

theorem Setting.of_site {config : Option String} {site : Site}
    (h : env.site config = .ok site) :
    ∃ s, Settings.load env.view env.cwd config = .ok s ∧ Site.build s.rules s.table = .ok site := by
  obtain ⟨s, hload, hbuild⟩ := Fallible.of_bind h
  exact ⟨s, Fallible.mapError_eq_ok_iff.mp hload, Fallible.mapError_eq_ok_iff.mp hbuild⟩

/-- The references come from nowhere but the directories that the settings name. -/
theorem Alike.rendered {path : String} {output : Option String} {site : Site}
    (h : Alike r env env') (ha : r.action? = some (.render path output))
    (hsite : env'.site r.config = .ok site) (text : String) :
    site.render env.view text = site.render env'.view text := by
  obtain ⟨s, hload, hbuild⟩ := Setting.of_site hsite
  obtain ⟨p, -, -, rfl⟩ := Site.of_build hbuild
  have hfound : p.discover env.view s.table = p.discover env'.view s.table := by
    apply p.discover_congr_view
    intro m hm
    apply h.sources
    simpa [Request.sources, ha, Action.fillsSlots, hload] using ⟨m, hm, rfl⟩
  simp only [Site.render, hfound]

theorem ofAction_congr (h : Alike r env env') (ha : r.action? = some a) :
    Plan.ofAction env r.config a = Plan.ofAction env' r.config a := by
  cases a with
  | render path output =>
      simp only [Plan.ofAction, Plan.render, h.site ha, h.page ha]
      cases hsite : env'.site r.config with
      | error f => rfl
      | ok site => simp only [bind, Except.bind, h.rendered ha hsite]
  | staticPaths => simp only [Plan.ofAction, Plan.staticPaths, h.site ha]
  | showConfig => simp only [Plan.ofAction, Plan.showConfig, h.settings ha]
  | validateConfig => simp only [Plan.ofAction, Plan.validateConfig, h.load ha]

/-- A plan depends on nothing that is not looked at. -/
theorem ofRequest_congr (h : Alike r env env') : Plan.ofRequest env r = Plan.ofRequest env' r := by
  rw [Plan.ofRequest, Plan.ofRequest]
  cases hinit : r.init with
  | true =>
      have ha : r.action? = none := by simp [Request.action?, hinit]
      have hfile : env.view Config.fileName = env'.view Config.fileName := by
        apply h.paths
        simp [Request.paths, ha]
      rw [if_pos rfl, if_pos rfl, Plan.init, Plan.init, hfile]
  | false =>
      have ha : r.action? = r.action := by simp [Request.action?, hinit]
      cases hasked : r.action with
      | none => rfl
      | some a => exact ofAction_congr h (ha.trans hasked)

section Watch

variable {m : Type → Type} [Monad m] [LawfulMonad m] {look : String → m Sight} {view : View}
  {cwd : String} {stdin stdin' : ByteArray}

theorem lookAt_eq (hlook : ∀ path, look path = pure (view path)) (paths : List String) :
    lookAt look paths = pure (paths.map fun path => (path, view path)) := by
  simp only [lookAt, hlook, pure_bind, List.mapM_pure]

theorem viewOf_map (view : View) {paths : List String} {path : String} (hpath : path ∈ paths) :
    viewOf (paths.map fun path => (path, view path)) path = view path := by
  induction paths with
  | nil => cases hpath
  | cons p paths ih =>
      rw [viewOf, List.map_cons, List.lookup_cons]
      by_cases hp : path = p
      · simp [hp]
      · have hbeq : (path == p) = false := beq_eq_false_iff_ne.mpr hp
        rw [hbeq]
        exact ih ((List.mem_cons.mp hpath).resolve_left hp)

/-- What is looked at beforehand is all that the plan needs: it is the plan for all there is. -/
theorem ofRequest_watch (hlook : ∀ path, look path = pure (view path))
    (hstdin : r.readsInput → stdin = stdin') :
    (fun env => Plan.ofRequest env r) <$> r.watch look cwd stdin =
      pure (Plan.ofRequest ⟨view, cwd, stdin'⟩ r) := by
  have hsources : r.sources ⟨viewOf ((r.paths cwd).map fun path => (path, view path)), cwd, stdin⟩ =
      r.sources ⟨view, cwd, stdin'⟩ := by
    apply sources_congr_view
    intro path hpath
    exact viewOf_map view hpath
  simp only [Request.watch, lookAt_eq hlook, pure_bind, map_pure, hsources, ← List.map_append]
  congr 1
  apply ofRequest_congr
  refine ⟨rfl, ?_, ?_, hstdin⟩
  · intro path hpath
    exact viewOf_map view (List.mem_append_left _ hpath)
  · intro path hpath
    exact viewOf_map view (List.mem_append_right _ hpath)

end Watch

/-- A run that first looks at all it may need, and reads its input only if it is asked to. -/
theorem run_eq_watch {d : Disk} {cwd : Location} {args : List String} {stdin : ByteArray}
    (h : Request.ofArguments args = .ok r) : run d cwd args stdin =
      (Plan.ofRequest (Id.run (r.watch (fun path => pure (d.view cwd path)) (Disk.absolute cwd)
        (if r.readsInput then stdin else .empty))) r).perform d cwd := by
  have hstdin : r.readsInput → (if r.readsInput then stdin else .empty) = stdin :=
    fun hreads => if_pos hreads
  rw [run_of_request h, Setting.here]
  congr 1
  exact (ofRequest_watch (m := Id) (fun _ => rfl) hstdin).symm

end Command

end AssetSlots
