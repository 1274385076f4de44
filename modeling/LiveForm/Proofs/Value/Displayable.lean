import LiveForm.Convergence
import LiveForm.Expr.Eval
import LiveForm.Proofs.Number.Binary64
import LiveForm.Value.Display

/-!
# Values that outputs can have

An evaluation ends in a text or a finite number.  Such a value can be displayed in every format,
and it is the same as itself within any tolerances that are not negative.
-/

namespace LiveForm

/-- A text or a finite number. -/
def Value.Displayable (v : Value) : Prop :=
  (∃ s, v = .text s) ∨ ∃ x : Binary64, v = .number x ∧ x.isFinite = true

theorem Expr.displayable_of_finalize {precision : Int} {v w : Value}
    (h : finalize precision v = .ok w) : w.Displayable := by
  unfold finalize at h
  split at h
  · cases h
    exact Or.inl ⟨_, rfl⟩
  · cases h
    refine Or.inr ⟨_, rfl, ?_⟩
    split
    · decide +kernel
    · decide +kernel
  · split at h
    · cases h
    · cases h
    · cases h
    · split at h
      · cases h
      · dsimp only at h
        split at h
        · next hf =>
          cases h
          exact Or.inr ⟨_, rfl, Binary64.isFinite_add_zero hf⟩
        · cases h

namespace Value

variable {v : Value}

theorem Displayable.isEmpty (h : v.Displayable) : v.isEmpty = false := by
  rcases h with ⟨s, rfl⟩ | ⟨x, rfl, hx⟩
  · rfl
  · obtain ⟨s, u, r, rfl⟩ := Binary64.exists_of_isFinite hx
    rfl

/-- It has few enough digits to be shown plainly. -/
theorem Displayable.plainText (h : v.Displayable) : ∃ text, v.plainText = .ok text := by
  rcases h with ⟨s, rfl⟩ | ⟨x, rfl, -⟩ <;> exact ⟨_, rfl⟩

theorem Displayable.format (h : v.Displayable) (locale : NumberLocale)
    (kind : Option FormatKind) : ∃ text, v.format locale kind = .ok text := by
  obtain ⟨plain, hplain⟩ := h.plainText
  unfold Value.format
  rw [if_neg (by rw [h.isEmpty]; exact Bool.false_ne_true), hplain]
  split
  · exact ⟨_, rfl⟩
  · exact ⟨_, rfl⟩
  · next kind _ =>
    rcases h with ⟨s, rfl⟩ | ⟨x, rfl, hx⟩
    · dsimp only
      split
      · split
        · exact ⟨_, rfl⟩
        · exact ⟨_, rfl⟩
      · exact ⟨_, rfl⟩
    · obtain ⟨s, u, r, rfl⟩ := Binary64.exists_of_isFinite hx
      cases kind <;> exact ⟨_, rfl⟩

/-- A value that an evaluation ends in can be displayed. -/
theorem Displayable.display (h : v.Displayable) (locale : NumberLocale)
    (format : Option String) : ∃ text, (v.display locale format).1 = .ok text := by
  unfold Value.display
  split
  · exact h.format locale none
  · split
    · exact h.format locale (some _)
    · exact h.format locale none

/-- No value is displayed as no text. -/
theorem display_absent (locale : NumberLocale) (format : Option String) :
    (Value.absent.display locale format).1 = .ok "" := by
  unfold Value.display
  split
  · rfl
  · split
    · rfl
    · rfl

/-- A value that an evaluation ends in is the same as itself. -/
theorem Displayable.converged_self (h : v.Displayable) {t : Tolerances}
    (hnan : t.absolute.isNaN = false) (hneg : ¬ t.absolute < 0) : t.converged v v = true := by
  rcases h with ⟨s, rfl⟩ | ⟨x, rfl, hx⟩
  · rw [Tolerances.converged]
    split
    · next hb => simpa using hb
    · simp [distance?, numeric?, same, counted?]
  · have hzero : (x - x).abs = .finite false 0 Binary64.representable_zero := by
      rw [Binary64.sub_self_of_isFinite hx]
      rfl
    rw [Tolerances.converged, if_neg (by simp [isBlank])]
    simp only [distance?, numeric?, hzero, Option.bind_eq_bind, Option.bind_some, Distance.within]
    rw [Bool.or_eq_true, decide_eq_true_eq]
    exact Or.inl (Binary64.zero_le_of_not_lt hnan hneg)

end Value

end LiveForm
