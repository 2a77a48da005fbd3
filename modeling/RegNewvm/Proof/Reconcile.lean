import RegNewvm.Proof.Pass

/-!
# The whole reconciliation

The purpose of the loop is `unregistered H V`: the names of `V` that are not in `H`, in order and
with their multiplicities.  The loop reaches it when no hostname of `H` is repeated in `V`
(`reconcile_eq_unregistered`), and for an `H` without repeats only then
(`reconcile_correct_iff`).  When `H` itself has repeats a later pass can happen to finish what an
earlier pass of the same hostname left over, so there the exact statement is about the array after
every pass (`reconcile_prefix_correct_iff`).
-/

namespace RegNewvm

open Perl

variable {α : Type*} [DecidableEq α]

/-- The names of `V` that are not registered in `H`. -/
def unregistered (H V : List α) : List α := V.filter (· ∉ H)

theorem unregistered_cons (hostname : α) (H V : List α) :
    unregistered (hostname :: H) V = unregistered H (V.filter (· ≠ hostname)) := by
  simp only [unregistered, List.filter_filter, List.mem_cons, not_or, Bool.decide_and, decide_not]
  exact List.filter_congr fun v _ => Bool.and_comm _ _

theorem mem_unregistered {H V : List α} {v : α} : v ∈ unregistered H V ↔ v ∈ V ∧ v ∉ H := by
  simp [unregistered]

/-- An array with at most one `hostname` loses exactly that one in its pass. -/
theorem pass_eq_filter {hostname : α} {V : List α} (h : V.count hostname ≤ 1) :
    pass hostname V = V.filter (· ≠ hostname) := by
  rw [pass_eq_erase h]
  induction V with
  | nil => rfl
  | cons v V ih =>
    by_cases hv : v = hostname
    · subst hv
      rw [List.count_cons_self] at h
      have hV : v ∉ V := List.count_eq_zero.1 (by omega)
      rw [List.erase_cons_head, List.filter_cons_of_neg (by simp)]
      exact (List.filter_eq_self.2 fun a ha => by simpa using ne_of_mem_of_not_mem ha hV).symm
    · rw [List.count_cons_of_ne hv] at h
      rw [List.erase_cons_tail (by simpa using hv), List.filter_cons_of_pos (by simpa using hv),
        ih h]

theorem reconcile_eq_unregistered {H V : List α} (h : ∀ hostname ∈ H, V.count hostname ≤ 1) :
    reconcile H V = unregistered H V := by
  induction H generalizing V with
  | nil => simp [unregistered]
  | cons hostname H ih =>
    obtain ⟨hhead, htail⟩ := List.forall_mem_cons.1 h
    rw [reconcile_cons, pass_eq_filter hhead, unregistered_cons]
    exact ih fun g hg => (List.filter_sublist.count_le g).trans (htail g hg)

theorem reconcile_sublist (H V : List α) : (reconcile H V).Sublist V := by
  induction H generalizing V with
  | nil => rw [reconcile_nil]
  | cons hostname H ih =>
    rw [reconcile_cons]
    exact (ih _).trans (pass_sublist hostname V)

/-! ## Exactness -/

theorem countP_not_mem_cons {hostname : α} {H V : List α} (h : hostname ∉ H) :
    V.countP (· ∉ H) = V.countP (· ∉ hostname :: H) + V.count hostname := by
  induction V with
  | nil => rfl
  | cons v V ih =>
    rw [List.countP_cons, List.countP_cons, List.count_cons, ih]
    by_cases hv : v = hostname
    · subst hv
      simp [h, Nat.add_assoc]
    · simp [hv, Nat.add_right_comm]

/-- With no hostname listed twice, the passes do not delete more elements than are registered. -/
theorem countP_le_length_reconcile {H : List α} (hH : H.Nodup) (V : List α) :
    V.countP (· ∉ H) ≤ (reconcile H V).length := by
  induction H generalizing V with
  | nil => simp
  | cons hostname H ih =>
    obtain ⟨hnot, hH⟩ := List.nodup_cons.1 hH
    have hsub := pass_sublist hostname V
    have hloss : V.countP (· ∉ H) - (V.length - (pass hostname V).length) ≤
        (pass hostname V).countP (· ∉ H) := hsub.le_countP _
    have hlen := length_le_pass hostname V
    have hcount := countP_not_mem_cons (V := V) hnot
    have hrest := ih hH (pass hostname V)
    rw [reconcile_cons]
    omega

theorem count_le_one_of_reconcile_eq {H : List α} (hH : H.Nodup) {V : List α}
    (heq : reconcile H V = unregistered H V) : ∀ hostname ∈ H, V.count hostname ≤ 1 := by
  induction H generalizing V with
  | nil => simp
  | cons hostname H ih =>
    obtain ⟨hnot, hH⟩ := List.nodup_cons.1 hH
    rw [reconcile_cons] at heq
    -- the later passes cannot delete what this pass leaves of `hostname`
    have hhead : V.count hostname ≤ 1 := by
      have hlen := countP_le_length_reconcile hH (pass hostname V)
      rw [countP_not_mem_cons hnot] at hlen
      have hall : (reconcile H (pass hostname V)).countP (· ∉ hostname :: H) =
          (reconcile H (pass hostname V)).length := by
        rw [heq, List.countP_eq_length]
        intro v hv
        simpa using (mem_unregistered.1 hv).2
      have hle := (reconcile_sublist H (pass hostname V)).countP_le (p := (· ∉ hostname :: H))
      have hzero : (pass hostname V).count hostname = 0 := by omega
      have := mt mem_pass_iff.2 (List.count_eq_zero.1 hzero)
      omega
    rw [pass_eq_filter hhead, unregistered_cons] at heq
    refine List.forall_mem_cons.2 ⟨hhead, fun g hg => ?_⟩
    have hg' := ih hH heq g hg
    rwa [List.count_filter (by simpa using ne_of_mem_of_not_mem hg hnot)] at hg'

/-- Every pass is right exactly when no hostname of `H` is repeated in `V`. -/
theorem reconcile_prefix_correct_iff (H V : List α) :
    (∀ H', H' <+: H → reconcile H' V = unregistered H' V) ↔
      ∀ hostname ∈ H, V.count hostname ≤ 1 := by
  constructor
  · intro h hostname hmem
    obtain ⟨A, B, rfl, hA⟩ := List.eq_append_cons_of_mem hmem
    have hbefore := h A (List.prefix_append A _)
    have hafter := h (A ++ [hostname]) ⟨B, by simp⟩
    rw [reconcile_concat, hbefore] at hafter
    have hgone : hostname ∉ pass hostname (unregistered A V) := by
      rw [hafter, mem_unregistered]
      simp
    rw [mem_pass_iff, unregistered, List.count_filter (by simpa using hA)] at hgone
    omega
  · intro h H' hH'
    exact reconcile_eq_unregistered fun g hg => h g (hH'.subset hg)

/-- When the reconciliation does its job: always if no hostname of `H` is repeated in `V`, only then
if `H` has no repeats, and after each of its passes only then for every `H`. -/
theorem reconcile_correct_iff (H V : List α) :
    ((∀ hostname ∈ H, V.count hostname ≤ 1) → reconcile H V = unregistered H V) ∧
      (H.Nodup →
        (reconcile H V = unregistered H V ↔ ∀ hostname ∈ H, V.count hostname ≤ 1)) ∧
      ((∀ H', H' <+: H → reconcile H' V = unregistered H' V) ↔
        ∀ hostname ∈ H, V.count hostname ≤ 1) :=
  ⟨reconcile_eq_unregistered,
    fun hH => ⟨count_le_one_of_reconcile_eq hH, reconcile_eq_unregistered⟩,
    reconcile_prefix_correct_iff H V⟩

/-- Two VMs called `web`, one of them registered: a new VM is lost and a `web` survives. -/
theorem reconcile_repeated_name :
    reconcile ["web"] ["new", "web", "db", "web"] = ["db", "web"] ∧
      unregistered ["web"] ["new", "web", "db", "web"] = ["new", "db"] ∧
      reconcile ["web"] ["new", "web", "db", "web"] ≠
        unregistered ["web"] ["new", "web", "db", "web"] := by
  decide

/-- A repeated hostname can repair the array, so repeats in `H` are excluded above. -/
example : reconcile ["web", "web"] ["web", "web"] = unregistered ["web", "web"] ["web", "web"] := by
  decide

end RegNewvm
