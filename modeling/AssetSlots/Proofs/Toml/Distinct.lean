import AssetSlots.Proofs.Fallible
import AssetSlots.Toml.Document
import Mathlib.Data.List.Nodup

namespace AssetSlots.Toml

inductive Value.Distinct : Value → Prop
  | text (s : String) : Distinct (.text s)
  | number (literal : String) : Distinct (.number literal)
  | boolean (b : Bool) : Distinct (.boolean b)
  | moment (m : Moment) : Distinct (.moment m)
  | array {items : List Value} (each : ∀ v ∈ items, Distinct v) : Distinct (.array items)
  | table {entries : Entries} (keys : (entries.map Prod.fst).Nodup)
      (each : ∀ e ∈ entries, Distinct e.2) : Distinct (.table entries)

structure Entries.Distinct (entries : Entries) : Prop where
  keys : (entries.map Prod.fst).Nodup
  each : ∀ e ∈ entries, e.2.Distinct

inductive Node.Distinct : Node → Prop
  | closed {v : Value} (h : v.Distinct) : Distinct (.closed v)
  | table (origin : Origin) {entries : Nodes} (keys : (entries.map Prod.fst).Nodup)
      (each : ∀ e ∈ entries, Distinct e.2) : Distinct (.table origin entries)
  | tables {items : List Nodes} (keys : ∀ t ∈ items, (t.map Prod.fst).Nodup)
      (each : ∀ t ∈ items, ∀ e ∈ t, Distinct e.2) : Distinct (.tables items)

structure Nodes.Distinct (entries : Nodes) : Prop where
  keys : (entries.map Prod.fst).Nodup
  each : ∀ e ∈ entries, e.2.Distinct

namespace Node

theorem values_eq_map (entries : Nodes) : values entries = entries.map fun e => (e.1, e.2.value) := by
  induction entries with
  | nil => rfl
  | cons e entries ih => rw [values, ih, List.map_cons]

theorem rows_eq_map (items : List Nodes) : rows items = items.map fun t => .table (values t) := by
  induction items with
  | nil => rfl
  | cons t items ih => rw [rows, ih, List.map_cons]

theorem keys_values (entries : Nodes) : (values entries).map Prod.fst = entries.map Prod.fst := by
  rw [values_eq_map, List.map_map]
  rfl

theorem forall_values {P : Value → Prop} {entries : Nodes} (h : ∀ e ∈ entries, P e.2.value) :
    ∀ e ∈ values entries, P e.2 := by
  rw [values_eq_map, List.forall_mem_map]
  exact h

theorem Distinct.value {n : Node} (h : n.Distinct) : n.value.Distinct := by
  induction h with
  | closed h => exact h
  | table origin keys _ ih => exact .table ((keys_values _).symm ▸ keys) (forall_values ih)
  | @tables items keys _ ih =>
      refine .array fun v hv => ?_
      rw [rows_eq_map] at hv
      obtain ⟨t, ht, rfl⟩ := List.mem_map.mp hv
      exact .table ((keys_values t).symm ▸ keys t ht) (forall_values (ih t ht))

end Node

namespace Nodes

def Keeps (f : Option Node → Option Node) : Prop :=
  ∀ old n, (∀ o ∈ old, o.Distinct) → f old = some n → n.Distinct

theorem Distinct.nil : Distinct [] := ⟨List.nodup_nil, by simp⟩

theorem Distinct.values {entries : Nodes} (h : Distinct entries) :
    Entries.Distinct (Node.values entries) :=
  ⟨(Node.keys_values entries).symm ▸ h.keys, Node.forall_values fun e he => (h.each e he).value⟩

theorem Distinct.table {entries : Nodes} (h : Distinct entries) (origin : Origin) :
    (Node.table origin entries).Distinct := .table origin h.keys h.each

theorem distinct_of_table {origin : Origin} {entries : Nodes}
    (h : (Node.table origin entries).Distinct) : Distinct entries := by
  cases h with
  | table _ keys each => exact ⟨keys, each⟩

theorem distinct_tables_iff {items : List Nodes} :
    (Node.tables items).Distinct ↔ ∀ t ∈ items, Distinct t := by
  constructor
  · intro h t ht
    cases h with
    | tables keys each => exact ⟨keys t ht, each t ht⟩
  · exact fun h => .tables (fun t ht => (h t ht).keys) fun t ht => (h t ht).each

theorem keys_modify {k : String} {f : Option Node → Option Node} {entries entries' : Nodes}
    (h : modify k f entries = some entries') :
    entries'.map Prod.fst =
      if k ∈ entries.map Prod.fst then entries.map Prod.fst else entries.map Prod.fst ++ [k] := by
  induction entries generalizing entries' with
  | nil =>
      obtain ⟨n, _, rfl⟩ := Option.map_eq_some_iff.mp h
      rfl
  | cons e entries ih =>
      obtain ⟨j, n⟩ := e
      rw [modify] at h
      split at h
      · next hjk =>
        obtain ⟨n', _, rfl⟩ := Option.map_eq_some_iff.mp h
        simp [hjk]
      · next hjk =>
        obtain ⟨rest, hrest, rfl⟩ := Option.map_eq_some_iff.mp h
        rw [List.map_cons, ih hrest]
        by_cases hk : k ∈ entries.map Prod.fst <;> simp_all [eq_comm]

theorem nodup_keys_modify {k : String} {f : Option Node → Option Node} {entries entries' : Nodes}
    (hd : (entries.map Prod.fst).Nodup) (h : modify k f entries = some entries') :
    (entries'.map Prod.fst).Nodup := by
  rw [keys_modify h]
  split
  · exact hd
  · next hk => simpa only [List.concat_eq_append] using List.Nodup.concat hk hd

theorem distinct_of_modify {k : String} {f : Option Node → Option Node} (hf : Keeps f)
    {entries entries' : Nodes} (hd : Distinct entries) (h : modify k f entries = some entries') :
    Distinct entries' := by
  refine ⟨nodup_keys_modify hd.keys h, ?_⟩
  replace hd := hd.each
  induction entries generalizing entries' with
  | nil =>
      obtain ⟨n, hn, rfl⟩ := Option.map_eq_some_iff.mp h
      simpa using hf none n (by simp) hn
  | cons e entries ih =>
      obtain ⟨j, n⟩ := e
      rw [List.forall_mem_cons] at hd
      rw [modify] at h
      split at h
      · obtain ⟨n', hn', rfl⟩ := Option.map_eq_some_iff.mp h
        exact List.forall_mem_cons.mpr ⟨hf (some n) n' (by simpa using hd.1) hn', hd.2⟩
      · obtain ⟨rest, hrest, rfl⟩ := Option.map_eq_some_iff.mp h
        exact List.forall_mem_cons.mpr ⟨hd.1, ih hrest hd.2⟩

theorem distinct_of_modifyLast {f : Nodes → Option Nodes}
    (hf : ∀ t t', Distinct t → f t = some t' → Distinct t') {items items' : List Nodes}
    (hd : ∀ t ∈ items, Distinct t) (h : modifyLast f items = some items') :
    ∀ t ∈ items', Distinct t := by
  induction items generalizing items' with
  | nil => cases h
  | cons t items ih =>
      rw [List.forall_mem_cons] at hd
      cases items with
      | nil =>
          obtain ⟨t', ht', rfl⟩ := Option.map_eq_some_iff.mp h
          simpa using hf t t' hd.1 ht'
      | cons u items =>
          obtain ⟨rest, hrest, rfl⟩ := Option.map_eq_some_iff.mp h
          exact List.forall_mem_cons.mpr ⟨hd.1, ih hd.2 hrest⟩

theorem distinct_of_put {own : Bool} {v : Value} (hv : v.Distinct) {path : List String}
    {entries entries' : Nodes} (hd : Distinct entries)
    (h : put own v path entries = some entries') : Distinct entries' := by
  -- Every key but the last one makes a table or enters one, and the rest of the path goes on there.
  induction path generalizing own entries entries' with
  | nil => cases h
  | cons k path ih =>
      cases path with
      | nil =>
          rw [put] at h
          split at h
          · refine distinct_of_modify ?_ hd h
            intro old n _ hn
            cases old with
            | none =>
                obtain rfl := Option.some.inj hn
                exact .closed hv
            | some o => cases hn
          · cases h
      | cons j path =>
          simp only [put] at h
          refine distinct_of_modify ?_ hd h
          intro old n hold hn
          rcases old with _ | o
          · obtain ⟨t, ht, rfl⟩ := Option.map_eq_some_iff.mp hn
            exact (ih .nil ht).table _
          · have ho : o.Distinct := hold o rfl
            cases o with
            | closed _ => cases hn
            | tables items =>
                obtain ⟨items', hitems, rfl⟩ := Option.map_eq_some_iff.mp hn
                exact distinct_tables_iff.mpr
                  (distinct_of_modifyLast (fun _ _ => ih) (distinct_tables_iff.mp ho) hitems)
            | table origin inner =>
                cases origin with
                | header => cases hn
                | inner | dotted =>
                    obtain ⟨t, ht, rfl⟩ := Option.map_eq_some_iff.mp hn
                    exact (ih (distinct_of_table ho) ht).table _

theorem distinct_of_fill {body : Body} (hbody : ∀ a ∈ body, a.2.Distinct) {entries entries' : Nodes}
    (hd : Distinct entries) (h : fill body entries = some entries') : Distinct entries' :=
  Fallible.keeps_of_foldlM (fun a ha _ _ => distinct_of_put (hbody a ha)) hd h

theorem distinct_of_descend {f : Option Node → Option Node} (hf : Keeps f) {path : List String}
    {entries entries' : Nodes} (hd : Distinct entries)
    (h : descend f path entries = some entries') : Distinct entries' := by
  induction path generalizing entries entries' with
  | nil => cases h
  | cons k path ih =>
      cases path with
      | nil => exact distinct_of_modify hf hd h
      | cons j path =>
          simp only [descend] at h
          refine distinct_of_modify ?_ hd h
          intro old n hold hn
          rcases old with _ | o
          · obtain ⟨t, ht, rfl⟩ := Option.map_eq_some_iff.mp hn
            exact (ih .nil ht).table _
          · have ho : o.Distinct := hold o rfl
            cases o with
            | closed _ => cases hn
            | table origin inner =>
                obtain ⟨t, ht, rfl⟩ := Option.map_eq_some_iff.mp hn
                exact (ih (distinct_of_table ho) ht).table _
            | tables items =>
                obtain ⟨items', hitems, rfl⟩ := Option.map_eq_some_iff.mp hn
                exact distinct_tables_iff.mpr
                  (distinct_of_modifyLast (fun _ _ => ih) (distinct_tables_iff.mp ho) hitems)

variable {body : Body}

theorem keeps_openTable (hbody : ∀ a ∈ body, a.2.Distinct) : Keeps (openTable body) := by
  intro old n hold hn
  rcases old with _ | o
  · obtain ⟨t, ht, rfl⟩ := Option.map_eq_some_iff.mp hn
    exact (distinct_of_fill hbody .nil ht).table _
  · have ho : o.Distinct := hold o rfl
    rcases o with _ | ⟨_ | _ | _, entries⟩ | _
    case table.inner =>
        obtain ⟨t, ht, rfl⟩ := Option.map_eq_some_iff.mp hn
        exact (distinct_of_fill hbody (distinct_of_table ho) ht).table _
    all_goals cases hn

theorem keeps_addTable (hbody : ∀ a ∈ body, a.2.Distinct) : Keeps (addTable body) := by
  intro old n hold hn
  rcases old with _ | o
  · obtain ⟨t, ht, rfl⟩ := Option.map_eq_some_iff.mp hn
    exact distinct_tables_iff.mpr (by simpa using distinct_of_fill hbody .nil ht)
  · have ho : o.Distinct := hold o rfl
    cases o with
    | closed _ | table _ _ => cases hn
    | tables items =>
        obtain ⟨t, ht, rfl⟩ := Option.map_eq_some_iff.mp hn
        refine distinct_tables_iff.mpr fun u hu => ?_
        rcases List.mem_append.mp hu with hu | hu
        · exact distinct_tables_iff.mp ho u hu
        · obtain rfl := List.mem_singleton.mp hu
          exact distinct_of_fill hbody .nil ht

end Nodes

def Statement.Distinct : Statement → Prop
  | .assign _ v => v.Distinct
  | .header _ => True
  | .listHeader _ => True

theorem distinct_of_parts {statements : List Statement} (h : ∀ s ∈ statements, s.Distinct) :
    (∀ a ∈ (parts statements).1, a.2.Distinct) ∧
      ∀ p ∈ (parts statements).2, ∀ a ∈ p.body, a.2.Distinct := by
  induction statements with
  | nil => exact ⟨by simp [parts], by simp [parts]⟩
  | cons s statements ih =>
      rw [List.forall_mem_cons] at h
      obtain ⟨hbody, hparts⟩ := ih h.2
      cases s with
      | assign path v => exact ⟨List.forall_mem_cons.mpr ⟨h.1, hbody⟩, hparts⟩
      | header path | listHeader path =>
          exact ⟨by simp [parts], List.forall_mem_cons.mpr ⟨hbody, hparts⟩⟩

theorem distinct_of_addTo {p : Part} (hp : ∀ a ∈ p.body, a.2.Distinct) {nodes nodes' : Nodes}
    (hd : Nodes.Distinct nodes) (h : p.addTo nodes = some nodes') : Nodes.Distinct nodes' := by
  refine Nodes.distinct_of_descend ?_ hd h
  split
  · exact Nodes.keeps_addTable hp
  · exact Nodes.keeps_openTable hp

theorem distinct_of_assemble {statements : List Statement} (hs : ∀ s ∈ statements, s.Distinct)
    {entries : Entries} (h : assemble statements = some entries) : entries.Distinct := by
  obtain ⟨hbody, hparts⟩ := distinct_of_parts hs
  obtain ⟨root, hroot, h⟩ := Option.bind_eq_some_iff.mp h
  obtain ⟨nodes, hnodes, h⟩ := Option.bind_eq_some_iff.mp h
  obtain rfl := Option.some.inj h
  have hd : Nodes.Distinct root := Nodes.distinct_of_fill hbody .nil hroot
  exact (Fallible.keeps_of_foldlM (fun p hp _ _ => distinct_of_addTo (hparts p hp)) hd hnodes).values

section Reading

variable {α : Type} {t rest : List Char}

theorem forall_of_readItems {P : α → Prop} {item : List Char → Option (α × List Char)}
    (hitem : ∀ t a rest, item t = some (a, rest) → P a) {close : Char} {n : Nat} {items : List α}
    (h : readItems item close n t = some (items, rest)) : ∀ a ∈ items, P a := by
  induction n generalizing t items rest with
  | zero => cases h
  | succ n ih =>
      obtain ⟨u, _, h⟩ := Option.bind_eq_some_iff.mp h
      split at h
      · obtain ⟨rfl, _⟩ := Prod.mk.inj (Option.some.inj h)
        simp
      · obtain ⟨⟨a, u⟩, ha, h⟩ := Option.bind_eq_some_iff.mp h
        obtain ⟨u, _, h⟩ := Option.bind_eq_some_iff.mp h
        split at h
        · obtain ⟨⟨more, u⟩, hmore, h⟩ := Option.bind_eq_some_iff.mp h
          obtain ⟨rfl, _⟩ := Prod.mk.inj (Option.some.inj h)
          exact List.forall_mem_cons.mpr ⟨hitem _ _ _ ha, ih hmore⟩
        · obtain ⟨u, _, h⟩ := Option.bind_eq_some_iff.mp h
          obtain ⟨rfl, _⟩ := Prod.mk.inj (Option.some.inj h)
          simpa using hitem _ _ _ ha

theorem of_readAssign {P : Value → Prop} {skip : List Char → Option (List Char)}
    {value : List Char → Option (Value × List Char)}
    (hvalue : ∀ t v rest, value t = some (v, rest) → P v) {a : List String × Value}
    (h : readAssign skip value t = some (a, rest)) : P a.2 := by
  obtain ⟨_, _, h⟩ := Option.bind_eq_some_iff.mp h
  obtain ⟨_, _, h⟩ := Option.bind_eq_some_iff.mp h
  obtain ⟨_, _, h⟩ := Option.bind_eq_some_iff.mp h
  obtain ⟨_, _, h⟩ := Option.bind_eq_some_iff.mp h
  obtain ⟨⟨v, u⟩, hv, h⟩ := Option.bind_eq_some_iff.mp h
  obtain ⟨rfl, _⟩ := Prod.mk.inj (Option.some.inj h)
  exact hvalue _ _ _ hv

theorem distinct_of_word? {v : Value} (h : word? t = some v) : v.Distinct := by
  unfold word? at h
  split at h
  · obtain rfl := Option.some.inj h
    exact .boolean _
  · split at h
    · obtain rfl := Option.some.inj h
      exact .boolean _
    · split at h
      · obtain rfl := Option.some.inj h
        exact .moment _
      · split at h
        · obtain rfl := Option.some.inj h
          exact .number _
        · cases h

theorem distinct_of_readValue {depth : Nat} {v : Value}
    (h : readValue depth t = some (v, rest)) : v.Distinct := by
  -- The items of an array and the values of an inline table are read at less depth.
  induction depth using Nat.strongRecOn generalizing t v rest with
  | ind depth ih =>
    revert h
    fun_cases readValue depth t
    case case1 depth t =>
        intro h
        obtain ⟨⟨items, u⟩, hitems, h⟩ := Option.map_eq_some_iff.mp h
        obtain ⟨rfl, _⟩ := Prod.mk.inj h
        exact .array (forall_of_readItems (fun _ _ _ => ih depth (Nat.lt_succ_self depth)) hitems)
    case case2 depth t _ =>
        intro h
        obtain ⟨⟨body, u⟩, hbody, h⟩ := Option.bind_eq_some_iff.mp h
        obtain ⟨nodes, hnodes, h⟩ := Option.bind_eq_some_iff.mp h
        obtain ⟨rfl, _⟩ := Prod.mk.inj (Option.some.inj h)
        have hvalue : ∀ t v rest, readValue depth t = some (v, rest) → v.Distinct :=
          fun _ _ _ => ih depth (Nat.lt_succ_self depth)
        have hassigned : ∀ a ∈ body, a.2.Distinct :=
          forall_of_readItems (fun _ _ _ => of_readAssign hvalue) hbody
        have hd := (Nodes.distinct_of_fill hassigned .nil hnodes).values
        exact .table hd.keys hd.each
    case case3 | case4 =>
        intro h
        obtain ⟨⟨s, u⟩, _, h⟩ := Option.map_eq_some_iff.mp h
        obtain ⟨rfl, _⟩ := Prod.mk.inj h
        exact .text _
    case case5 =>
        intro h
        obtain ⟨w, hw, h⟩ := Option.map_eq_some_iff.mp h
        obtain ⟨rfl, _⟩ := Prod.mk.inj h
        exact distinct_of_word? hw

theorem distinct_of_readStatement {s : Statement} (h : readStatement t = some (s, rest)) :
    s.Distinct := by
  unfold readStatement at h
  split at h
  · unfold readHeader at h
    split at h
    · obtain ⟨_, _, h⟩ := Option.bind_eq_some_iff.mp h
      obtain ⟨_, _, h⟩ := Option.bind_eq_some_iff.mp h
      obtain ⟨_, _, h⟩ := Option.bind_eq_some_iff.mp h
      obtain ⟨rfl, _⟩ := Prod.mk.inj (Option.some.inj h)
      trivial
    · obtain ⟨_, _, h⟩ := Option.bind_eq_some_iff.mp h
      obtain ⟨_, _, h⟩ := Option.bind_eq_some_iff.mp h
      obtain ⟨rfl, _⟩ := Prod.mk.inj (Option.some.inj h)
      trivial
  · obtain ⟨⟨⟨path, v⟩, u⟩, hassign, h⟩ := Option.bind_eq_some_iff.mp h
    obtain ⟨rfl, _⟩ := Prod.mk.inj (Option.some.inj h)
    exact of_readAssign (fun _ _ _ => distinct_of_readValue) hassign

theorem distinct_of_readStatements {n : Nat} {statements : List Statement}
    (h : readStatements n t = some statements) : ∀ s ∈ statements, s.Distinct := by
  induction n generalizing t statements with
  | zero =>
      rw [readStatements] at h
      obtain ⟨u, _, h⟩ := Option.bind_eq_some_iff.mp h
      split at h
      · obtain rfl := Option.some.inj h
        simp
      · cases h
  | succ n ih =>
      rw [readStatements] at h
      obtain ⟨u, _, h⟩ := Option.bind_eq_some_iff.mp h
      split at h
      · obtain rfl := Option.some.inj h
        simp
      · obtain ⟨⟨s, u⟩, hs, h⟩ := Option.bind_eq_some_iff.mp h
        obtain ⟨_, _, h⟩ := Option.bind_eq_some_iff.mp h
        obtain ⟨more, hmore, h⟩ := Option.bind_eq_some_iff.mp h
        obtain rfl := Option.some.inj h
        exact List.forall_mem_cons.mpr ⟨distinct_of_readStatement hs, ih hmore⟩

end Reading

theorem distinct_of_parse {text : String} {entries : Entries} (h : parse text = some entries) :
    entries.Distinct := by
  obtain ⟨statements, hread, h⟩ := Option.bind_eq_some_iff.mp h
  exact distinct_of_assemble (distinct_of_readStatements hread) h

end AssetSlots.Toml
