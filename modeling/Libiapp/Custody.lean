import Mathlib.Data.List.Perm.Basic

/-! Things held by several holders. What all of them hold, together with what is in hand on
the way from one to another, is kept up to order when one holder is replaced by another that
has taken over exactly what was in hand or given up what now is. -/
namespace Libiapp.Custody
variable {σ ι : Type} (held : σ → List ι)

def all (holders : List σ) : List ι := holders.flatMap held

theorem replaced {holders : List σ} {i : Nat} {s} (s') (found : holders[i]? = some s) :
    (held s ++ all held (holders.set i s')).Perm (held s' ++ all held holders) := by
  induction holders generalizing i with
  | nil => simp at found
  | cons first rest ih =>
    cases i with
    | zero =>
      cases Option.some.inj found
      simp only [all,List.set_cons_zero,List.flatMap_cons]
      exact List.perm_append_comm_assoc _ _ _
    | succ i =>
      have tail : (held s ++ all held (rest.set i s')).Perm (held s' ++ all held rest) := ih found
      simp only [all,List.set_cons_succ,List.flatMap_cons]
      calc
        List.Perm (held s ++ (held first ++ all held (rest.set i s')))
            (held first ++ (held s ++ all held (rest.set i s'))) := List.perm_append_comm_assoc _ _ _
        List.Perm _ (held first ++ (held s' ++ all held rest)) := tail.append_left _
        List.Perm _ (held s' ++ (held first ++ all held rest)) := List.perm_append_comm_assoc _ _ _

theorem exchanged {holders : List σ} {i : Nat} {s s'} {hand hand' : List ι} (found : holders[i]? = some s)
    (same : (hand' ++ held s').Perm (hand ++ held s)) :
    (hand' ++ all held (holders.set i s')).Perm (hand ++ all held holders) := by
  refine (List.perm_append_left_iff (held s)).mp ?_
  calc
    List.Perm (held s ++ (hand' ++ all held (holders.set i s')))
        (hand' ++ (held s ++ all held (holders.set i s'))) := List.perm_append_comm_assoc _ _ _
    List.Perm _ (hand' ++ (held s' ++ all held holders)) := (replaced held s' found).append_left _
    List.Perm _ ((hand' ++ held s') ++ all held holders) := by rw [List.append_assoc]
    List.Perm _ ((hand ++ held s) ++ all held holders) := same.append_right _
    List.Perm _ (hand ++ (held s ++ all held holders)) := by rw [List.append_assoc]
    List.Perm _ (held s ++ (hand ++ all held holders)) := List.perm_append_comm_assoc _ _ _

end Libiapp.Custody
