import Mathlib.Data.List.Nodup
import Mathlib.Tactic.Common

/-!
# Lists of keys with values

What is looked up in such a list is one of its pairs; where no key occurs twice every pair is found.
-/

namespace LiveForm

variable {α β : Type} [DecidableEq α] {a b : α} {v : β} {ps : List (α × β)}

theorem mem_of_lookup (h : ps.lookup a = some v) : (a, v) ∈ ps := by
  obtain ⟨front, back, rfl, -⟩ := List.lookup_eq_some_iff.mp h
  exact List.mem_append_right _ List.mem_cons_self

/-- Where no key occurs twice every pair is found. -/
theorem lookup_of_mem (hps : (ps.map (·.1)).Nodup) {p : α × β} (h : p ∈ ps) :
    ps.lookup p.1 = some p.2 := by
  obtain ⟨front, back, rfl⟩ := List.append_of_mem h
  refine List.lookup_eq_some_iff.mpr ⟨front, back, rfl, fun q hq => ?_⟩
  rw [List.map_append, List.map_cons] at hps
  have hne := (List.nodup_append.mp hps).2.2 q.1 (List.mem_map_of_mem hq) p.1 List.mem_cons_self
  exact bne_iff_ne.mpr (Ne.symm hne)

/-- Where no key occurs twice the order of the pairs does not matter. -/
theorem lookup_of_perm {qs : List (α × β)} (hps : (ps.map (·.1)).Nodup) (h : qs.Perm ps) (a : α) :
    qs.lookup a = ps.lookup a := by
  have hqs : (qs.map (·.1)).Nodup := (h.map (·.1)).nodup_iff.mpr hps
  ext v
  constructor
  · exact fun hv => lookup_of_mem hps (h.mem_iff.mp (mem_of_lookup hv))
  · exact fun hv => lookup_of_mem hqs (h.mem_iff.mpr (mem_of_lookup hv))

/-- A key is found as before when another one is taken out. -/
theorem lookup_filter_ne (ps : List (α × β)) (h : b ≠ a) :
    (ps.filter (·.1 != a)).lookup b = ps.lookup b := by
  induction ps with
  | nil => rfl
  | cons p ps ih =>
    obtain ⟨k, v⟩ := p
    rw [List.filter_cons]
    split
    · rw [List.lookup_cons, List.lookup_cons, ih]
    · next hk =>
      have hka : k = a := by simpa using hk
      rw [ih, List.lookup_cons, hka, beq_false_of_ne h]

theorem lookup_map_pair {ns : List α} {f : α → β} :
    (ns.map fun n => (n, f n)).lookup a = if a ∈ ns then some (f a) else none := by
  induction ns with
  | nil => rfl
  | cons n ns ih =>
    rw [List.map_cons, List.lookup_cons, ih]
    by_cases ha : a = n
    · subst ha
      simp
    · rw [beq_eq_false_iff_ne.mpr ha]
      simp [ha]

theorem mem_lookup_map_pair {ns : List α} {f : α → List β} :
    v ∈ ((ns.map fun n => (n, f n)).lookup a).getD [] ↔ a ∈ ns ∧ v ∈ f a := by
  rw [lookup_map_pair]
  by_cases ha : a ∈ ns
  · simp [ha]
  · simp [ha]

/-- What is looked up when the value of one key was changed. -/
theorem lookup_map_at (ps : List (α × β)) (a b : α) (f : β → β) :
    (ps.map fun p => if p.1 == a then (p.1, f p.2) else p).lookup b =
      (ps.lookup b).map fun v => if b = a then f v else v := by
  induction ps with
  | nil => rfl
  | cons p ps ih =>
    obtain ⟨k, v⟩ := p
    have hhead : (if k == a then (k, f v) else (k, v)) = (k, if k = a then f v else v) := by
      by_cases ha : k = a
      · rw [if_pos (beq_iff_eq.mpr ha), if_pos ha]
      · rw [if_neg (by simpa using ha), if_neg ha]
    rw [List.map_cons, hhead, List.lookup_cons, List.lookup_cons, ih]
    by_cases hb : b = k
    · subst hb
      rw [beq_self_eq_true]
      rfl
    · rw [beq_false_of_ne hb]

end LiveForm
