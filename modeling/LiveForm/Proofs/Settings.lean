import LiveForm.Proofs.Number.Binary64
import LiveForm.Settings

/-!
# Settings that are read are in range
-/

namespace LiveForm.Settings

/-- No number is negative, and the counts are positive; the precision may be anything. -/
structure InRange (s : Settings) : Prop where
  numbers : ∀ k, ¬ s.getNumber k < 0
  counts : ∀ k, k ≠ .precision → 1 ≤ s.getCount k

theorem inRange_default : InRange {} := by
  constructor
  · intro k
    cases k <;> decide +kernel
  · intro k hk
    cases k with
    | precision => exact absurd rfl hk
    | historySize | batchSize | maxQueue | maxPasses => decide

theorem getNumber_setNumber (s : Settings) (k k' : NumberKey) (x : Binary64) :
    (s.setNumber k x).getNumber k' = if k' = k then x else s.getNumber k' := by
  cases k <;> cases k' <;> rfl

theorem getCount_setNumber (s : Settings) (k : NumberKey) (k' : CountKey) (x : Binary64) :
    (s.setNumber k x).getCount k' = s.getCount k' := by
  cases k <;> rfl

theorem getCount_setCount (s : Settings) (k k' : CountKey) (i : Int) :
    (s.setCount k i).getCount k' = if k' = k then i else s.getCount k' := by
  cases k <;> cases k' <;> rfl

theorem getNumber_setCount (s : Settings) (k : CountKey) (k' : NumberKey) (i : Int) :
    (s.setCount k i).getNumber k' = s.getNumber k' := by
  cases k <;> rfl

theorem InRange.setNumber {s : Settings} (h : s.InRange) {x : Binary64} (hx : ¬ x < 0)
    (k : NumberKey) : (s.setNumber k x).InRange := by
  refine ⟨fun k' => ?_, fun k' hk => ?_⟩
  · rw [getNumber_setNumber]
    split
    · exact hx
    · exact h.numbers k'
  · rw [getCount_setNumber]
    exact h.counts k' hk

theorem InRange.setCount {s : Settings} (h : s.InRange) {i : Int} {k : CountKey}
    (hi : ¬ (i < 1 ∧ k ≠ .precision)) : (s.setCount k i).InRange := by
  refine ⟨fun k' => ?_, fun k' hk => ?_⟩
  · rw [getNumber_setCount]
    exact h.numbers k'
  · rw [getCount_setCount]
    split
    · next he =>
      subst he
      by_contra hlt
      exact hi ⟨by omega, hk⟩
    · exact h.counts k' hk

/-- An entry that is taken leaves the settings in range. -/
theorem InRange.put {s s' : Settings} (h : s.InRange) {place key : String} {d : Data}
    (hput : s.put place key d = .ok s') : s'.InRange := by
  unfold Settings.put at hput
  split at hput
  · cases hput
  · split at hput
    · split at hput
      · cases hput
      · next hi =>
        dsimp only at hput
        split at hput
        · cases hput
          exact h.setNumber (Binary64.not_ofInt_lt_zero hi) _
        · cases hput
    · split at hput
      · cases hput
      · next hx =>
        cases hput
        exact h.setNumber hx _
    · cases hput
  · split at hput
    · split at hput
      · cases hput
      · next hi =>
        cases hput
        exact h.setCount hi
    · cases hput
  · split at hput
    · split at hput
      · cases hput
        exact ⟨h.numbers, h.counts⟩
      · cases hput
    · cases hput
    · cases hput
    · cases hput

theorem put_count {place key : String} {k : CountKey}
    (hk : keys.lookup (normalizeKey key) = some (.count k)) {i : Int} (hi : 1 ≤ i) (s : Settings) :
    s.put place key (.scalar (.integer i)) = .ok (s.setCount k i) := by
  unfold put
  rw [hk]
  dsimp only
  rw [if_neg (by omega)]

/-- One entry with a count sets that count. -/
theorem ofEntries_count {place key : String} {k : CountKey}
    (hk : keys.lookup (normalizeKey key) = some (.count k)) {i : Int} (hi : 1 ≤ i) :
    ofEntries place [(key, .scalar (.integer i))] = .ok (setCount {} k i) := by
  unfold ofEntries
  rw [List.foldlM_cons, put_count hk hi]
  rfl

/-- One entry with a whole number of seconds or a tolerance sets that number. -/
theorem ofEntries_number {place key : String} {k : NumberKey}
    (hk : keys.lookup (normalizeKey key) = some (.number k)) {i : Int} (hi : 0 ≤ i)
    (hfinite : (Binary64.ofInt i).isFinite = true) :
    ofEntries place [(key, .scalar (.integer i))] = .ok (setNumber {} k (.ofInt i)) := by
  have hput : put place key (.scalar (.integer i)) {} = .ok (setNumber {} k (.ofInt i)) := by
    unfold put
    rw [hk]
    dsimp only
    rw [if_neg (by omega), if_pos hfinite]
  unfold ofEntries
  rw [List.foldlM_cons, hput]
  rfl

/-- Settings that are read from entries are in range. -/
theorem inRange_of_ofEntries {place : String} {es : List (String × Data)} {s : Settings}
    (h : ofEntries place es = .ok s) : s.InRange := by
  suffices hall : ∀ (es : List (String × Data)) (base : Settings), base.InRange →
      es.foldlM (fun s e => s.put place e.1 e.2) base = .ok s → s.InRange by
    exact hall es {} inRange_default h
  intro es
  induction es with
  | nil =>
    intro base hbase h
    cases h
    exact hbase
  | cons e es ih =>
    intro base hbase h
    rw [List.foldlM_cons] at h
    cases hp : base.put place e.1 e.2 with
    | error err =>
      rw [hp] at h
      cases h
    | ok base' =>
      rw [hp] at h
      exact ih base' (hbase.put hp) h

end LiveForm.Settings
