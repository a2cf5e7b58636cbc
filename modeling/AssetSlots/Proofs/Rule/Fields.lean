import AssetSlots.Rule
import Mathlib.Data.Option.Basic

namespace AssetSlots

def Field.all : List Field := [template, glob, slot]

theorem Field.mem_all (f : Field) : f ∈ all := by cases f <;> decide

namespace Rule

def blank : Rule := ⟨"", "", ""⟩

def value (r : Rule) : Field → String
  | .template => r.template
  | .glob => r.glob
  | .slot => r.slot

theorem ext_value {r r' : Rule} (h : ∀ f, r.value f = r'.value f) : r = r' := by
  obtain ⟨template, glob, slot⟩ := r
  obtain ⟨template', glob', slot'⟩ := r'
  obtain rfl : template = template' := h .template
  obtain rfl : glob = glob' := h .glob
  obtain rfl : slot = slot' := h .slot
  rfl

namespace Partial

variable {kind : String} {p : Partial} {f : Field}

def value? (p : Partial) : Field → Option String
  | .template => p.template
  | .glob => p.glob
  | .slot => p.slot

/-- A field that is not stated, or stated as the empty text. -/
def Lacks (p : Partial) (f : Field) : Prop := p.value? f = none ∨ p.value? f = some ""

instance : Decidable (p.Lacks f) := inferInstanceAs (Decidable (_ ∨ _))

def Full (p : Partial) : Prop := ∀ f, ¬p.Lacks f

def firstGap (p : Partial) : Option Field := Field.all.find? fun f => decide (p.Lacks f)

theorem firstGap_eq_none_iff : p.firstGap = none ↔ p.Full := by
  simp [firstGap, Full, Field.mem_all]

instance : Decidable p.Full := decidable_of_iff _ firstGap_eq_none_iff

theorem exists_firstGap (h : ¬p.Full) : ∃ f, p.firstGap = some f := by
  rw [← firstGap_eq_none_iff] at h
  exact Option.ne_none_iff_exists'.mp h

theorem value?_eq_some_of_not_lacks (h : ¬p.Lacks f) : ∃ v, p.value? f = some v ∧ v ≠ "" := by
  rw [Lacks, not_or] at h
  obtain ⟨v, hv⟩ := Option.ne_none_iff_exists'.mp h.1
  exact ⟨v, hv, fun he => h.2 (he ▸ hv)⟩

theorem require_of_lacks (h : p.Lacks f) :
    require kind f (p.value? f) = .error (.incompleteRule kind f) := by
  rcases h with h | h <;> rw [h] <;> rfl

theorem require_of_not_lacks (h : ¬p.Lacks f) :
    require kind f (p.value? f) = .ok ((p.value? f).getD "") := by
  obtain ⟨v, hv, hne⟩ := value?_eq_some_of_not_lacks h
  rw [hv, require.eq_2 kind f v hne, Option.getD_some]

theorem complete_of_full (kind : String) (h : p.Full) :
    p.complete kind = .ok (blank.overlaid p) := by
  have ht : require kind .template p.template = _ := require_of_not_lacks (h .template)
  have hg : require kind .glob p.glob = _ := require_of_not_lacks (h .glob)
  have hs : require kind .slot p.slot = _ := require_of_not_lacks (h .slot)
  rw [complete, ht, hg, hs]
  rfl

theorem lacks_of_firstGap (h : p.firstGap = some f) : p.Lacks f := by
  rw [firstGap] at h
  simpa using List.find?_some h

/-- The fields are checked in their order. -/
theorem complete_of_firstGap (kind : String) (h : p.firstGap = some f) :
    p.complete kind = .error (.incompleteRule kind f) := by
  have hlacks : p.Lacks f := lacks_of_firstGap h
  cases f with
  | template =>
      have ht : require kind .template p.template = _ := require_of_lacks hlacks
      rw [complete, ht]
      rfl
  | glob =>
      have ht : ¬p.Lacks .template := by
        intro ht
        simp [firstGap, Field.all, ht] at h
      have ht : require kind .template p.template = _ := require_of_not_lacks ht
      have hg : require kind .glob p.glob = _ := require_of_lacks hlacks
      rw [complete, ht, hg]
      rfl
  | slot =>
      have htg : ¬p.Lacks .template ∧ ¬p.Lacks .glob := by
        constructor
        · intro ht
          simp [firstGap, Field.all, ht] at h
        · intro hg
          by_cases ht : p.Lacks .template <;> simp [firstGap, Field.all, ht, hg] at h
      have ht : require kind .template p.template = _ := require_of_not_lacks htg.1
      have hg : require kind .glob p.glob = _ := require_of_not_lacks htg.2
      have hs : require kind .slot p.slot = _ := require_of_lacks hlacks
      rw [complete, ht, hg, hs]
      rfl

end Partial

theorem value_overlaid (r : Rule) (p : Partial) (f : Field) :
    (r.overlaid p).value f = (p.value? f).getD (r.value f) := by
  cases f <;> rfl

end Rule

end AssetSlots
