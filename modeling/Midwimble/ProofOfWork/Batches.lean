import Midwimble.Core.ProofOfWork

namespace Midwimble
set_option autoImplicit true

variable [Primitives]

theorem checkPieces_holds (hp : 0 < piece) (hfuel : jobs.length ≤ fuel)
    (h : checkPieces piece proceed fuel asked start jobs = .ok ()) : ∀ j ∈ jobs, j.holds := by
  induction fuel generalizing asked start jobs with
  | zero =>
    obtain rfl := List.length_eq_zero_iff.mp (Nat.le_zero.mp hfuel)
    simp
  | succ fuel ih =>
    simp only [checkPieces] at h
    split at h
    next hempty => simp [List.isEmpty_iff.mp hempty]
    next hne =>
      split at h
      · cases h
      · split at h
        · cases h
        next hnone =>
          rw [List.findIdx?_eq_none_iff] at hnone
          have hlen : 0 < jobs.length := List.length_pos_iff.mpr fun e => hne (by simp [e])
          have hrest := ih (by rw [List.length_drop]; omega) h
          intro j hj
          rw [← List.take_append_drop piece jobs, List.mem_append] at hj
          cases hj with
          | inl htake => simpa using hnone j htake
          | inr hdrop => exact hrest j hdrop

theorem checkPowJobs_eq_ok_iff : checkPowJobs jobs = .ok () ↔ ∀ j ∈ jobs, j.holds := by
  constructor
  · intro h
    cases jobs with
    | nil => simp
    | cons first rest =>
      simp only [checkPowJobs, checkPowJobsWith] at h
      split at h
      · cases h
      · split at h
        · cases h
        next hfirst =>
          have hp : 0 < pieceSize := by simp only [pieceSize]; omega
          intro j hj
          cases List.mem_cons.mp hj with
          | inl e => simpa [e] using hfirst
          | inr hrest => exact checkPieces_holds hp le_rfl h j hrest
  · exact checkPowJobs_eq_ok

end Midwimble
