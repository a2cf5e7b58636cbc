import AssetSlots.MountTable

namespace AssetSlots.MountTable

theorem declare_eq (t : MountTable) (kind : String) (d : Declaration) :
    t.declare kind d = match d.mount with
      | .ok m => .ok (t.add kind m)
      | .error count => .error (.declaration kind count) := by
  rw [declare, Step.declare]
  cases d.mount <;> rfl

theorem result_bind (s s' : Step Unit) (t : MountTable) :
    Step.result (s >>= fun _ => s') t = s.result t >>= s'.result := by
  rw [Step.result, Step.result]
  rcases hs : s.run.run t with ⟨e | _, t'⟩
  · have hrun : (s >>= fun _ => s').run.run t = (.error e, t') := by
      simp only [ExceptT.run_bind, StateT.run_bind, hs]
      rfl
    rw [hrun]
    rfl
  · have hrun : (s >>= fun _ => s').run.run t = s'.run.run t' := by
      simp only [ExceptT.run_bind, StateT.run_bind, hs]
      rfl
    rw [hrun]
    rfl

theorem result_forM {α : Type} (f : α → Step Unit) (list : List α) (t : MountTable) :
    Step.result (list.forM f) t = list.foldlM (fun t a => (f a).result t) t := by
  induction list generalizing t with
  | nil => rfl
  | cons a list ih =>
      have hcons : (a :: list).forM f = (f a >>= fun _ => list.forM f) := rfl
      rw [hcons, result_bind, List.foldlM_cons]
      exact congrArg _ (funext ih)

def declareRow (t : MountTable) (row : String × List Declaration) : Except Error MountTable :=
  row.2.foldlM (·.declare row.1) (t.register row.1)

theorem ofDeclarations_eq_foldlM (ds : KeyMap (List Declaration)) :
    ofDeclarations ds = ds.entries.foldlM declareRow empty := by
  rw [ofDeclarations, result_forM]
  congr
  funext t ⟨kind, list⟩
  have hall : Step.result (Step.declareAll kind list) t =
      (Step.register kind).result t >>= (list.forM (Step.declare kind)).result :=
    result_bind (Step.register kind) (list.forM (Step.declare kind)) t
  refine hall.trans ?_
  exact result_forM (Step.declare kind) list (t.register kind)

end AssetSlots.MountTable
