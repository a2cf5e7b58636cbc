import AssetSlots.Proofs.Pipeline.Passes
import AssetSlots.Site
import Mathlib

namespace AssetSlots.Pipeline

open Text

variable {p : Pipeline}

theorem fillAll_flatten {passes : List Pass} (hs : ∀ k ∈ passes, '\n' ∉ k.1.token)
    {chunks : List (List Char)} (hchunks : ∀ x ∈ chunks, Terminated x) :
    fillAll passes chunks.flatten = chunks.flatMap (fillAll passes) := by
  induction chunks with
  | nil =>
      apply fillAll_of_absent hs
      intro k _
      exact Slot.absent_nil
  | cons x xs ih =>
      rw [List.forall_mem_cons] at hchunks
      rw [List.flatten_cons, fillAll_append hs hchunks.1 (Terminated.flatten hchunks.2),
        ih hchunks.2, List.flatMap_cons]

theorem substitute_join (hp : p.SingleLine) (discovered : List (List String))
    {body : List String} (hbody : ∀ chunk ∈ body, Terminated chunk.toList) :
    String.join (body.map (p.substitute discovered)) =
      p.substitute discovered (String.join body) := by
  have hchunks : ∀ x ∈ body.map String.toList, Terminated x := by
    intro x hx
    obtain ⟨chunk, hchunk, rfl⟩ := List.mem_map.mp hx
    exact hbody chunk hchunk
  rw [← String.toList_inj, substitute_eq, String.toList_join, String.toList_ofList,
    String.toList_join, List.flatMap_def (l := body), fillAll_flatten hp.notMem hchunks]
  simp only [List.flatMap_map, substitute_eq, String.toList_ofList]

/-- Line ends are where a body may be cut: the chunks come out as the pieces of the whole page, and
every other cut of the body at line ends gives the same page. -/
theorem join_run_eq_render (hp : p.SingleLine) (view : View) (table : MountTable)
    {body : List String} (hbody : ∀ chunk ∈ body, Terminated chunk.toList) :
    String.join (p.run view table body) = String.join (p.run view table [String.join body]) ∧
      String.join (p.run view table body) = Site.render ⟨p, table⟩ view (String.join body) ∧
      ∀ body' : List String, (∀ chunk ∈ body', Terminated chunk.toList) →
        String.join body' = String.join body →
        String.join (p.run view table body') = String.join (p.run view table body) := by
  have hjoin := substitute_join hp (p.discover view table) hbody
  refine ⟨?_, hjoin, fun body' hbody' heq => ?_⟩
  · rw [run, hjoin]
    simp [run]
  · rw [run, substitute_join hp _ hbody', heq, ← hjoin, run]

def nested : Pipeline :=
  ⟨[⟨"js", ⟨"<", ">\n C"⟩, ⟨[.anyRun]⟩, jSlot⟩, ⟨"css", ⟨"[", "]"⟩, ⟨[.anyRun]⟩, cSlot⟩]⟩

def oneFile : View := fun _ => .folder (.ofEntries [⟨"a", true⟩])

def bothKinds : MountTable := (MountTable.empty.add "js" (.shared "j")).add "css" (.shared "c")

theorem join_run_eq_render_nested :
    nested.SingleLine ∧
      (∀ chunk ∈ ["J\r\n", "", " C\nb\n\tJ\n"], Terminated chunk.toList) ∧
      nested.run oneFile bothKinds ["J\r\n", "", " C\nb\n\tJ\n"] =
        ["</j/a>\n [/c/a]\r\n", "", " [/c/a]\nb\n\t</j/a>\n [/c/a]\n"] ∧
      String.join ["</j/a>\n [/c/a]\r\n", "", " [/c/a]\nb\n\t</j/a>\n [/c/a]\n"] =
        Site.render ⟨nested, bothKinds⟩ oneFile "J\r\n C\nb\n\tJ\n" := by
  have hp : nested.SingleLine := by decide
  have hbody : ∀ chunk ∈ ["J\r\n", "", " C\nb\n\tJ\n"], Terminated chunk.toList := by decide
  have hrun : nested.run oneFile bothKinds ["J\r\n", "", " C\nb\n\tJ\n"] =
      ["</j/a>\n [/c/a]\r\n", "", " [/c/a]\nb\n\t</j/a>\n [/c/a]\n"] := by cbv
  obtain ⟨_, hrender, _⟩ := join_run_eq_render hp oneFile bothKinds hbody
  rw [hrun] at hrender
  exact ⟨hp, hbody, hrun, hrender⟩

end AssetSlots.Pipeline
