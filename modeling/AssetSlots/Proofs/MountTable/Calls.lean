import AssetSlots.Proofs.KeyMap.Rows
import AssetSlots.Proofs.MountTable.Steps
import Mathlib

namespace AssetSlots

namespace Declaration

variable {d : Declaration}

inductive Names : Declaration → Mount → Prop
  | shared (path : String) : Names (.shared path) (.shared path)
  | pair (source serve : String) :
      Names (.mapping (KeyMap.empty.insert source serve)) (.ofPaths source serve)

theorem mount_eq_ok_iff {m : Mount} : d.mount = .ok m ↔ d.Names m := by
  refine ⟨fun h => ?_, fun h => by cases h <;> rfl⟩
  cases d with
  | shared path =>
      obtain rfl := Except.ok.inj h
      exact .shared path
  | mapping pairs =>
      obtain ⟨entries, hsorted⟩ := pairs
      rw [mount] at h
      split at h
      · next source serve hentries =>
        obtain rfl : entries = [(source, serve)] := hentries
        obtain rfl := Except.ok.inj h
        exact .pair source serve
      · cases h

/-- The sources of a mapping are distinct, so that their number is that of its pairs. -/
theorem card_sources (pairs : KeyMap String) : pairs.keys.toFinset.card = pairs.size := by
  rw [List.toFinset_card_of_nodup pairs.nodup_keys]
  exact List.length_map _

theorem mount_eq_error_iff {n : Nat} : d.mount = .error n ↔
    ∃ pairs, d = .mapping pairs ∧ pairs.keys.toFinset.card ≠ 1 ∧ n = pairs.keys.toFinset.card := by
  cases d with
  | shared path => simp [mount]
  | mapping pairs =>
      simp only [card_sources, mapping.injEq, exists_eq_left']
      rw [mount, KeyMap.size]
      split
      · next hentries => simp [hentries]
      · next hne =>
        have hlength : pairs.entries.length ≠ 1 := by
          intro hlength
          obtain ⟨⟨source, serve⟩, hentries⟩ := List.length_eq_one_iff.mp hlength
          exact hne source serve hentries
        simp [hlength, eq_comm]

end Declaration

namespace MountTable

variable {t t' : MountTable} {k : String}

inductive Call where
  | path (kind path : String)
  | pair (kind source serve : String)
  | declare (kind : String) (d : Declaration)
  deriving DecidableEq

namespace Call

def kind : Call → String
  | .path kind _ => kind
  | .pair kind _ _ => kind
  | .declare kind _ => kind

def mount? : Call → Option Mount
  | .path _ p => some (.shared p)
  | .pair _ source serve => some (.ofPaths source serve)
  | .declare _ d => d.mount.toOption

inductive Adds : Call → Mount → Prop
  | path (kind path : String) : Adds (.path kind path) (.shared path)
  | pair (kind source serve : String) : Adds (.pair kind source serve) (.ofPaths source serve)
  | declare (kind : String) {d : Declaration} {m : Mount} (h : d.Names m) : Adds (.declare kind d) m

theorem mount?_eq_some_iff {c : Call} {m : Mount} : c.mount? = some m ↔ c.Adds m := by
  constructor
  · intro h
    cases c with
    | path kind p =>
        obtain rfl := Option.some.inj h
        exact .path kind p
    | pair kind source serve =>
        obtain rfl := Option.some.inj h
        exact .pair kind source serve
    | declare kind d =>
        cases hd : d.mount with
        | error n => simp [mount?, hd, Except.toOption] at h
        | ok m' =>
            obtain rfl : m' = m := by simpa [mount?, hd, Except.toOption] using h
            exact .declare kind (Declaration.mount_eq_ok_iff.mp hd)
  · rintro (_ | _ | ⟨_, h⟩)
    · rfl
    · rfl
    · rw [mount?, Declaration.mount_eq_ok_iff.mpr h]
      rfl

end Call

variable {c : Call} {m : Mount}

def Call.step : Call → Step Unit
  | .path kind p => .add kind (.shared p)
  | .pair kind source serve => .add kind (.ofPaths source serve)
  | .declare kind d => .declare kind d

def call (t : MountTable) (c : Call) : Except Error MountTable := c.step.result t

/-- The table that stays in use, also if the call fails. -/
def after (t : MountTable) (c : Call) : MountTable := c.step.left t

def run (t : MountTable) (calls : List Call) : MountTable := calls.foldl after t

def built (calls : List Call) : MountTable := empty.run calls

def callsFor (kind : String) (calls : List Call) : List Call :=
  calls.filter fun c => decide (c.kind = kind)

def added (kind : String) (calls : List Call) : List Mount :=
  (callsFor kind calls).filterMap Call.mount?

theorem call_eq_ok_iff : t.call c = .ok t' ↔ ∃ m, c.mount? = some m ∧ t' = t.add c.kind m := by
  cases c with
  | path kind path =>
      have hcall : t.call (.path kind path) = .ok (t.add kind (.shared path)) := rfl
      simp [hcall, Call.mount?, Call.kind, eq_comm]
  | pair kind source serve =>
      have hcall : t.call (.pair kind source serve) = .ok (t.add kind (.ofPaths source serve)) :=
        rfl
      simp [hcall, Call.mount?, Call.kind, eq_comm]
  | declare kind d =>
      have hcall : t.call (.declare kind d) = t.declare kind d := rfl
      rw [hcall, declare_eq]
      cases hd : d.mount with
      | ok m => simp [Call.mount?, Call.kind, hd, Except.toOption, eq_comm]
      | error n => simp [Call.mount?, hd, Except.toOption]

theorem after_of_some (h : c.mount? = some m) : t.after c = t.add c.kind m := by
  cases c with
  | path kind path =>
      obtain rfl := Option.some.inj h
      rfl
  | pair kind source serve =>
      obtain rfl := Option.some.inj h
      rfl
  | declare kind d =>
      cases hd : d.mount with
      | error n => simp [Call.mount?, hd, Except.toOption] at h
      | ok m' =>
          obtain rfl : m' = m := by simpa [Call.mount?, hd, Except.toOption] using h
          rw [after, Call.step, Step.declare, hd]
          rfl

/-- A declaration is checked before the table is touched. -/
theorem after_of_none (h : c.mount? = none) : t.after c = t := by
  cases c with
  | path kind path => cases h
  | pair kind source serve => cases h
  | declare kind d =>
      cases hd : d.mount with
      | ok m => simp [Call.mount?, hd, Except.toOption] at h
      | error n =>
          rw [after, Call.step, Step.declare, hd]
          rfl

theorem after_of_error {e : Error} (h : t.call c = .error e) : t.after c = t := by
  apply after_of_none
  rw [Option.eq_none_iff_forall_ne_some]
  intro m hm
  rw [call_eq_ok_iff.mpr ⟨m, hm, rfl⟩] at h
  cases h

theorem declare_eq_error_iff {kind : String} {d : Declaration} {e : Error} :
    t.declare kind d = .error e ↔ ∃ pairs, d = .mapping pairs ∧ pairs.keys.toFinset.card ≠ 1 ∧
      e = .declaration kind pairs.keys.toFinset.card := by
  have hcount : t.declare kind d = .error e ↔
      ∃ n, d.mount = .error n ∧ e = .declaration kind n := by
    rw [declare_eq]
    cases d.mount <;> simp [eq_comm]
  simp only [hcount, Declaration.mount_eq_error_iff]
  constructor
  · rintro ⟨n, ⟨pairs, hd, hne, rfl⟩, rfl⟩
    exact ⟨pairs, hd, hne, rfl⟩
  · rintro ⟨pairs, hd, hne, rfl⟩
    exact ⟨_, ⟨pairs, hd, hne, rfl⟩, rfl⟩

theorem added_cons_of_some (h : c.mount? = some m) (cs : List Call) :
    added k (c :: cs) = if k = c.kind then m :: added k cs else added k cs := by
  rw [added, callsFor, List.filter_cons]
  by_cases hk : k = c.kind
  · simp [hk, h, added, callsFor]
  · simp [hk, Ne.symm hk, added, callsFor]

theorem added_cons_of_none (h : c.mount? = none) (cs : List Call) :
    added k (c :: cs) = added k cs := by
  rw [added, callsFor, List.filter_cons]
  by_cases hk : c.kind = k <;> simp [hk, h, added, callsFor]

theorem added_eq_nil_iff {calls : List Call} :
    added k calls = [] ↔ ∀ c ∈ calls, c.kind = k → c.mount? = none := by
  simp [added, callsFor]

theorem find?_add (t : MountTable) (kind : String) (m : Mount) (k : String) :
    (t.add kind m).byKind.find? k =
      if k = kind then some (t.get kind ++ [m]) else t.byKind.find? k :=
  t.byKind.find?_insert kind _ k

theorem find?_register (t : MountTable) (kind k : String) :
    (t.register kind).byKind.find? k = if k = kind then some (t.get kind) else t.byKind.find? k :=
  t.byKind.find?_insert kind _ k

/-- A kind is in the table as soon as something has been added for it. -/
theorem find?_run (t : MountTable) (calls : List Call) (k : String) :
    (t.run calls).byKind.find? k =
      if added k calls = [] then t.byKind.find? k else some (t.get k ++ added k calls) := by
  induction calls generalizing t with
  | nil => rfl
  | cons c cs ih =>
      rw [run, List.foldl_cons, ← run, ih]
      cases hm : c.mount? with
      | none => rw [after_of_none hm, added_cons_of_none hm]
      | some m =>
          rw [after_of_some hm, added_cons_of_some hm, find?_add, get_add]
          by_cases hk : k = c.kind
          · subst hk
            by_cases hadded : added c.kind cs = [] <;> simp [hadded]
          · simp [hk]

theorem get_run (t : MountTable) (calls : List Call) (k : String) :
    (t.run calls).get k = t.get k ++ added k calls := by
  rw [get, find?_run]
  split
  · next h => rw [h, List.append_nil, get]
  · rfl

theorem find?_built (calls : List Call) (k : String) :
    (built calls).byKind.find? k = if added k calls = [] then none else some (added k calls) :=
  find?_run empty calls k

theorem get_built (calls : List Call) (k : String) : (built calls).get k = added k calls :=
  get_run empty calls k

theorem mem_kinds_built {calls : List Call} :
    k ∈ (built calls).kinds ↔ ∃ c ∈ calls, c.kind = k ∧ ∃ m, c.mount? = some m := by
  have hsome : k ∈ (built calls).kinds ↔ added k calls ≠ [] := by
    rw [kinds, KeyMap.mem_keys_iff, find?_built]
    split <;> simp [*]
  rw [hsome, ne_eq, added_eq_nil_iff]
  simp [Option.ne_none_iff_exists']

theorem ext_find? (h : ∀ k, t.byKind.find? k = t'.byKind.find? k) : t = t' := by
  obtain ⟨m⟩ := t
  obtain ⟨m'⟩ := t'
  exact congrArg MountTable.mk (KeyMap.ext_find? h)

/-- The table shows the calls for each kind, and not how they are mixed. -/
theorem built_congr {calls calls' : List Call}
    (h : ∀ kind, callsFor kind calls = callsFor kind calls') : built calls = built calls' := by
  apply ext_find?
  intro k
  rw [find?_built, find?_built, added, h k, added]

theorem built_skip (before rest : List Call) {e : Error} (h : (built before).call c = .error e) :
    built (before ++ c :: rest) = built (before ++ rest) := by
  have hstays : (before.foldl after empty).after c = before.foldl after empty := after_of_error h
  rw [built, run, List.foldl_append, List.foldl_cons, hstays, ← List.foldl_append, built, run]

section Declarations

variable {rows : List (String × List Declaration)}

def declareAll (rows : List (String × List Declaration)) : List Call :=
  rows.flatMap fun row => row.2.map (.declare row.1)

def stands (list : List Declaration) : List Mount := list.filterMap fun d => d.mount.toOption

theorem callsFor_declare (kind : String) (list : List Declaration) :
    callsFor k (list.map (.declare kind)) = if k = kind then list.map (.declare kind) else [] := by
  rw [callsFor, List.filter_map]
  by_cases hk : k = kind
  · simp [hk, Function.comp_def, Call.kind]
  · simp [hk, Ne.symm hk, Function.comp_def, Call.kind]

theorem added_declare (kind : String) (list : List Declaration) :
    added k (list.map (.declare kind)) = if k = kind then stands list else [] := by
  rw [added, callsFor_declare]
  split
  · rw [List.filterMap_map]; rfl
  · rfl

theorem added_append (k : String) (calls more : List Call) :
    added k (calls ++ more) = added k calls ++ added k more := by
  rw [added, callsFor, List.filter_append, List.filterMap_append]
  rfl

theorem added_declareAll (h : (rows.map Prod.fst).Nodup) :
    added k (declareAll rows) = stands ((rows.lookup k).getD []) := by
  induction rows with
  | nil => rfl
  | cons row rows ih =>
      obtain ⟨hrow, hrows⟩ := List.nodup_cons.mp h
      rw [declareAll, List.flatMap_cons, ← declareAll, added_append, added_declare, ih hrows,
        KeyMap.lookup_cons]
      by_cases hk : k = row.1
      · rw [if_pos hk, if_pos hk, hk, KeyMap.lookup_eq_none_iff.mpr hrow, Option.getD_some]
        exact List.append_nil _
      · rw [if_neg hk, if_neg hk, List.nil_append]

theorem foldlM_declare {list : List Declaration} (kind : String)
    (h : ∀ d ∈ list, ∃ m, d.mount = .ok m) (t : MountTable) :
    list.foldlM (·.declare kind) t = .ok (t.run (list.map (.declare kind))) := by
  induction list generalizing t with
  | nil => rfl
  | cons d ds ih =>
      rw [List.forall_mem_cons] at h
      obtain ⟨⟨m, hm⟩, hds⟩ := h
      have hd : t.declare kind d = .ok (t.after (.declare kind d)) := by
        have hadds : (Call.declare kind d).mount? = some m := by
          rw [Call.mount?, hm]
          rfl
        rw [declare_eq, hm, after_of_some hadds]
        rfl
      rw [List.foldlM_cons, hd]
      exact ih hds _

def enter (t : MountTable) (row : String × List Declaration) : MountTable :=
  (t.register row.1).run (row.2.map (.declare row.1))

theorem foldlM_declareRow (h : ∀ row ∈ rows, ∀ d ∈ row.2, ∃ m, d.mount = .ok m) (t : MountTable) :
    rows.foldlM declareRow t = .ok (rows.foldl enter t) := by
  induction rows generalizing t with
  | nil => rfl
  | cons row rows ih =>
      rw [List.forall_mem_cons] at h
      rw [List.foldlM_cons, declareRow, foldlM_declare row.1 h.1]
      exact ih h.2 _

theorem ofDeclarations_eq_foldl {ds : KeyMap (List Declaration)}
    (h : ∀ row ∈ ds.entries, ∀ d ∈ row.2, ∃ m, d.mount = .ok m) :
    ofDeclarations ds = .ok (ds.entries.foldl enter empty) := by
  rw [ofDeclarations_eq_foldlM]
  exact foldlM_declareRow h empty

theorem find?_enter (t : MountTable) (row : String × List Declaration) (k : String) :
    (t.enter row).byKind.find? k =
      if k = row.1 then some (t.get k ++ stands row.2) else t.byKind.find? k := by
  rw [enter, find?_run, added_declare, find?_register, get_register]
  by_cases hk : k = row.1
  · by_cases hstands : stands row.2 = [] <;> simp [hk, hstands]
  · simp [hk]

theorem find?_foldl_enter (h : (rows.map Prod.fst).Nodup) (t : MountTable) :
    (rows.foldl enter t).byKind.find? k =
      ((rows.lookup k).map fun list => t.get k ++ stands list).or (t.byKind.find? k) := by
  induction rows generalizing t with
  | nil => rfl
  | cons row rows ih =>
      obtain ⟨hrow, hrows⟩ := List.nodup_cons.mp h
      rw [List.foldl_cons, ih hrows, KeyMap.lookup_cons, get, find?_enter]
      by_cases hk : k = row.1
      · rw [hk, KeyMap.lookup_eq_none_iff.mpr hrow]
        simp
      · simp [hk, get]

theorem find?_foldl_register (kinds : List String) (t : MountTable) :
    (kinds.foldl register t).byKind.find? k =
      if k ∈ kinds then some (t.get k) else t.byKind.find? k := by
  induction kinds generalizing t with
  | nil => simp
  | cons kind kinds ih =>
      rw [List.foldl_cons, ih, find?_register, get_register]
      grind

end Declarations

def bare (ds : KeyMap (List Declaration)) : List String :=
  ds.keys.filter fun k => decide (ds.find? k = some [])

theorem mem_bare_iff {ds : KeyMap (List Declaration)} : k ∈ bare ds ↔ ds.find? k = some [] := by
  rw [bare, List.mem_filter, decide_eq_true_iff, KeyMap.mem_keys_iff]
  constructor
  · exact fun h => h.2
  · exact fun h => ⟨by rw [h]; rfl, h⟩

theorem stands_ne_nil {list : List Declaration} (h : ∀ d ∈ list, ∃ m, d.mount = .ok m)
    (hne : list ≠ []) : stands list ≠ [] := by
  obtain ⟨d, hd⟩ := List.exists_mem_of_ne_nil list hne
  obtain ⟨m, hm⟩ := h d hd
  exact List.ne_nil_of_mem (List.mem_filterMap.mpr ⟨d, hd, by rw [hm]; rfl⟩)

/-- All declarations together are the declarations one by one, but for the kinds without any. -/
theorem ofDeclarations_eq_register_built {ds : KeyMap (List Declaration)}
    (h : ∀ row ∈ ds.entries, ∀ d ∈ row.2, ∃ m, d.mount = .ok m) :
    ofDeclarations ds = .ok ((bare ds).foldl register (built (declareAll ds.entries))) := by
  rw [ofDeclarations_eq_foldl h]
  congr 1
  apply ext_find?
  intro k
  have hnodup : (ds.entries.map Prod.fst).Nodup := ds.nodup_keys
  have hget : empty.get k = [] := rfl
  have hempty : empty.byKind.find? k = none := rfl
  rw [find?_foldl_enter hnodup, find?_foldl_register, find?_built, get_built,
    added_declareAll hnodup, hget, hempty, Option.or_none]
  have hbare : k ∈ bare ds ↔ ds.entries.lookup k = some [] := mem_bare_iff
  cases hlist : ds.entries.lookup k with
  | none => simp [hbare, hlist, stands]
  | some list =>
      by_cases hnil : list = []
      · simp [hbare, hlist, hnil]
      · have hstands : stands list ≠ [] :=
          stands_ne_nil (h (k, list) ((KeyMap.lookup_eq_some_iff hnodup).mp hlist)) hnil
        simp [hbare, hlist, hnil, hstands]

/-- The table holds what the calls that succeed add, kind by kind and in their order, and no kind
without such a call. -/
structure Reflects (calls : List Call) (t : MountTable) : Prop where
  get : ∀ kind, t.get kind = added kind calls
  sorted : t.kinds.Pairwise (· < ·)
  kinds : ∀ kind, kind ∈ t.kinds ↔ ∃ c ∈ calls, c.kind = kind ∧ ∃ m, c.Adds m

theorem reflects_built (calls : List Call) : Reflects calls (built calls) where
  get := get_built calls
  sorted := KeyMap.sorted_keys _
  kinds kind := by simp only [mem_kinds_built, Call.mount?_eq_some_iff]

/-- Only a declaration can fail, one of a mapping that has not one source, and then it leaves no
trace. A table told by its calls is told by those for each kind, and by all declarations of a kind
together, but for the kinds without any. -/
theorem built_exact (calls : List Call) :
    Reflects calls (built calls) ∧
      (∀ (c : Call) m, c.mount? = some m ↔ c.Adds m) ∧
      (∀ t t' c, call t c = .ok t' ↔ ∃ m, c.Adds m ∧ t' = t.add c.kind m) ∧
      (∀ t c e, call t c = .error e → after t c = t) ∧
      (∀ (t : MountTable) kind d e, t.declare kind d = .error e ↔
        ∃ pairs, d = .mapping pairs ∧ pairs.keys.toFinset.card ≠ 1 ∧
          e = .declaration kind pairs.keys.toFinset.card) ∧
      (∀ before c rest, calls = before ++ c :: rest → (∃ e, (built before).call c = .error e) →
        built calls = built (before ++ rest)) ∧
      (∀ calls', (∀ kind, callsFor kind calls' = callsFor kind calls) →
        built calls' = built calls) ∧
      ∀ ds : KeyMap (List Declaration), (∀ row ∈ ds.entries, ∀ d ∈ row.2, ∃ m, d.Names m) →
        ofDeclarations ds = .ok ((bare ds).foldl register (built (declareAll ds.entries))) := by
  refine ⟨reflects_built calls, fun c m => Call.mount?_eq_some_iff, fun t t' c => ?_,
    fun t c e => after_of_error, fun t kind d e => declare_eq_error_iff, ?_,
    fun calls' h => built_congr h, fun ds h => ?_⟩
  · simp only [call_eq_ok_iff, Call.mount?_eq_some_iff]
  · rintro before c rest rfl ⟨e, he⟩
    exact built_skip before rest he
  · apply ofDeclarations_eq_register_built
    intro row hrow d hd
    obtain ⟨m, hm⟩ := h row hrow d hd
    exact ⟨m, Declaration.mount_eq_ok_iff.mpr hm⟩

def twoPairs : Declaration := .mapping (.ofList [("x", "u"), ("y", "v")])

def mixedCalls : List Call :=
  [.path "css" "a", .declare "img" twoPairs, .pair "app" "b" "c",
    .declare "css" (.mapping (.ofList [("d", "e")]))]

def groupedCalls : List Call :=
  [.pair "app" "b" "c", .path "css" "a", .declare "css" (.mapping (.ofList [("d", "e")])),
    .declare "img" twoPairs]

def groupedDeclarations : KeyMap (List Declaration) :=
  .ofList [("css", [.shared "a", .mapping (.ofList [("d", "e")])]), ("img", [])]

theorem built_exact_mixed :
    (built mixedCalls).get "css" = [.shared "a", .ofPaths "d" "e"] ∧
      (built mixedCalls).kinds = ["app", "css"] ∧
      empty.declare "img" twoPairs = .error (.declaration "img" 2) ∧
      empty.after (.declare "img" twoPairs) = empty ∧
      built groupedCalls = built mixedCalls ∧
      ofDeclarations groupedDeclarations =
        .ok ((built [.path "css" "a", .declare "css" (.mapping (.ofList [("d", "e")]))]).register
          "img") := by
  obtain ⟨hreflects, -, -, hstays, herror, -, hmixed, hall⟩ := built_exact mixedCalls
  have htwo : empty.declare "img" twoPairs = .error (.declaration "img" 2) :=
    (herror _ _ _ _).mpr ⟨_, rfl, by decide, rfl⟩
  have hkinds : ∀ kind, callsFor kind groupedCalls = callsFor kind mixedCalls := by
    intro kind
    by_cases hcss : "css" = kind
    · subst hcss
      rfl
    · by_cases happ : "app" = kind
      · subst happ
        rfl
      · simp [callsFor, groupedCalls, mixedCalls, List.filter_cons, Call.kind, hcss, happ]
  have hgood : ∀ row ∈ groupedDeclarations.entries, ∀ d ∈ row.2, ∃ m, d.Names m := by
    have hentries : groupedDeclarations.entries =
        [("css", [.shared "a", .mapping (KeyMap.empty.insert "d" "e")]), ("img", [])] := rfl
    simpa [hentries] using ⟨⟨_, .shared "a"⟩, ⟨_, .pair "d" "e"⟩⟩
  exact ⟨hreflects.get "css", rfl, htwo, hstays empty (.declare "img" twoPairs) _ htwo,
    hmixed groupedCalls hkinds, hall groupedDeclarations hgood⟩

end MountTable

end AssetSlots
