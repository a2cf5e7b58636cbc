import AssetSlots.KeyMap
import AssetSlots.Rule

namespace AssetSlots

structure RuleSet where
  entries : List (String × Rule)
  nodup : (entries.map Prod.fst).Nodup
  deriving DecidableEq

namespace RuleSet

def empty : RuleSet := ⟨[], .nil⟩

def builtin : RuleSet :=
  ⟨[("javascript",
      ⟨"<script type=\"text/javascript\" src=\"%s\"></script>", "*.js", "<!-- SLOT: JAVASCRIPT -->"⟩),
    ("css",
      ⟨"<link rel=\"stylesheet\" type=\"text/css\" href=\"%s\" />", "*.css", "<!-- SLOT: CSS -->"⟩)],
    by decide⟩

def kinds (s : RuleSet) : List String := s.entries.map Prod.fst

def find? (s : RuleSet) (kind : String) : Option Rule := s.entries.lookup kind

def size (s : RuleSet) : Nat := s.entries.length

def isEmpty (s : RuleSet) : Bool := s.entries.isEmpty

def put (kind : String) (rule : Rule) : List (String × Rule) → List (String × Rule)
  | [] => [(kind, rule)]
  | e :: es => if e.1 = kind then (kind, rule) :: es else e :: put kind rule es

theorem kinds_put (kind : String) (rule : Rule) (es : List (String × Rule)) :
    (put kind rule es).map Prod.fst =
      if kind ∈ es.map Prod.fst then es.map Prod.fst else es.map Prod.fst ++ [kind] := by
  induction es with
  | nil => rfl
  | cons e es ih =>
      rw [put]
      by_cases h : e.1 = kind
      · simp [h]
      · rw [if_neg h, List.map_cons, ih]
        by_cases hk : kind ∈ es.map Prod.fst <;> simp_all [eq_comm]

theorem nodup_put (kind : String) (rule : Rule) {es : List (String × Rule)}
    (h : (es.map Prod.fst).Nodup) : ((put kind rule es).map Prod.fst).Nodup := by
  rw [kinds_put]
  split
  · exact h
  · next hk =>
    refine List.nodup_append.2 ⟨h, by simp, fun a ha b hb => ?_⟩
    rw [List.mem_singleton] at hb
    exact fun hab => hk (hb ▸ hab ▸ ha)

def insert (s : RuleSet) (kind : String) (rule : Rule) : RuleSet :=
  ⟨put kind rule s.entries, nodup_put kind rule s.nodup⟩

theorem kinds_insert (s : RuleSet) (kind : String) (rule : Rule) :
    (s.insert kind rule).kinds = if kind ∈ s.kinds then s.kinds else s.kinds ++ [kind] :=
  kinds_put kind rule s.entries

theorem lookup_put (kind : String) (rule : Rule) (es : List (String × Rule)) (k : String) :
    (put kind rule es).lookup k = if k = kind then some rule else es.lookup k := by
  induction es with
  | nil => simp [put, KeyMap.lookup_cons]
  | cons e es ih =>
      rw [put]
      split
      · next h => rw [KeyMap.lookup_cons, KeyMap.lookup_cons, h]; split <;> rfl
      · next h => rw [KeyMap.lookup_cons, ih, KeyMap.lookup_cons]; split <;> grind

theorem find?_insert (s : RuleSet) (kind : String) (rule : Rule) (k : String) :
    (s.insert kind rule).find? k = if k = kind then some rule else s.find? k :=
  lookup_put kind rule s.entries k

/-- Overlays partial rules, in name order. A kind that has a rule keeps its place and what is not
stated; a new kind has to be stated in full. -/
def overlay (s : RuleSet) (overrides : KeyMap Rule.Partial) : Except Error RuleSet :=
  overrides.entries.foldlM (fun set (kind, p) =>
    match set.find? kind with
    | some rule => .ok (set.insert kind (rule.overlaid p))
    | none => set.insert kind <$> p.complete kind) s

end RuleSet

end AssetSlots
