import Mathlib.Data.List.Basic

namespace Fallible
set_option autoImplicit true

/-- Stops with `e` when `c` holds. -/
def bailIf (c : Prop) [Decidable c] (e : ε) : Except ε Unit :=
  if c then .error e else .ok ()

/-- The value of an option, or the error that its absence is. -/
def orBail (o : Option α) (e : ε) : Except ε α :=
  match o with
  | some a => .ok a
  | none => .error e

/-- Runs a check over a list, stopping at the first failure. -/
def checkAll (f : α → Except ε Unit) : List α → Except ε Unit
  | [] => .ok ()
  | x :: xs => f x >>= fun _ => checkAll f xs

theorem bind_eq_ok {x : Except ε α} {f : α → Except ε β} :
    (x >>= f) = .ok b ↔ ∃ a, x = .ok a ∧ f a = .ok b := by
  cases x with
  | error e => simp [bind, Except.bind]
  | ok a => simp [bind, Except.bind]

theorem check_bind_eq_ok {x : Except ε Unit} {f : Unit → Except ε β} :
    (x >>= f) = .ok b ↔ x = .ok () ∧ f () = .ok b := by
  rw [bind_eq_ok]
  exact ⟨fun ⟨_, hx, hf⟩ => ⟨hx, hf⟩, fun h => ⟨(), h⟩⟩

theorem bind_ok (a : α) (f : α → Except ε β) : (Except.ok a >>= f) = f a := rfl

theorem bind_error (e : ε) (f : α → Except ε β) :
    ((Except.error e : Except ε α) >>= f) = .error e := rfl

theorem pure_eq_ok {a b : α} : (pure a : Except ε α) = .ok b ↔ a = b := by
  simp [pure, Except.pure]

theorem bailIf_pos [Decidable c] (h : c) (e : ε) : bailIf c e = .error e := if_pos h

theorem bailIf_neg [Decidable c] (h : ¬ c) (e : ε) : bailIf c e = .ok () := if_neg h

theorem bailIf_eq_ok [Decidable c] {e : ε} {u : Unit} : bailIf c e = .ok u ↔ ¬ c := by
  by_cases h : c <;> simp [bailIf, h]

theorem orBail_some (a : α) (e : ε) : orBail (some a) e = .ok a := rfl

theorem orBail_eq_ok {o : Option α} {e : ε} : orBail o e = .ok a ↔ o = some a := by
  cases o <;> simp [orBail]

theorem ite_bind_eq_ok [Decidable c] {x : Except ε α} {y : Except ε β} {g : β → Except ε α}
    {f : α → Except ε γ} :
    (if c then x >>= f else y >>= fun b => g b >>= f) = .ok r ↔
      ∃ a, (if c then x else y >>= g) = .ok a ∧ f a = .ok r := by
  split
  · exact bind_eq_ok
  · simp only [bind_eq_ok]
    constructor
    · rintro ⟨b, hy, a, hg, hf⟩
      exact ⟨a, ⟨b, hy, hg⟩, hf⟩
    · rintro ⟨a, ⟨b, hy, hg⟩, hf⟩
      exact ⟨b, hy, a, hg, hf⟩

theorem checkAll_eq_ok {f : α → Except ε Unit} {xs : List α} :
    checkAll f xs = .ok () ↔ ∀ x ∈ xs, f x = .ok () := by
  induction xs with
  | nil => simp [checkAll]
  | cons x xs ih =>
    simp only [checkAll, bind_eq_ok, ih, List.mem_cons, forall_eq_or_imp]
    exact ⟨fun ⟨_, hx, hxs⟩ => ⟨hx, hxs⟩, fun ⟨hx, hxs⟩ => ⟨(), hx, hxs⟩⟩

theorem foldlM_total {f : σ → α → Except ε σ} {xs : List α}
    (step : ∀ s, ∀ x ∈ xs, ∃ s', f s x = .ok s') (s : σ) : ∃ s', xs.foldlM f s = .ok s' := by
  induction xs generalizing s with
  | nil => exact ⟨s, rfl⟩
  | cons x xs ih =>
    obtain ⟨t, ht⟩ := step s x List.mem_cons_self
    obtain ⟨s', hs⟩ := ih (fun s x hx => step s x (List.mem_cons_of_mem _ hx)) t
    exact ⟨s', by rw [List.foldlM_cons, ht, bind_ok, hs]⟩

theorem foldlM_invariant {f : σ → α → Except ε σ} (P : σ → Prop)
    (step : ∀ s x s', P s → f s x = .ok s' → P s') {xs : List α} :
    P s → xs.foldlM f s = .ok s' → P s' := by
  induction xs generalizing s with
  | nil =>
    intro hs h
    rw [List.foldlM_nil, pure_eq_ok] at h
    exact h ▸ hs
  | cons x xs ih =>
    intro hs h
    rw [List.foldlM_cons, bind_eq_ok] at h
    obtain ⟨t, ht, hr⟩ := h
    exact ih (step s x t hs ht) hr

theorem foldlM_eq_of_nil {f : σ → α → Except ε σ} {xs : List α} (hx : xs = [])
    (h : xs.foldlM f s = .ok s') : s' = s := by
  subst hx
  rw [List.foldlM_nil, pure_eq_ok] at h
  exact h.symm

theorem foldlM_cons_eq_ok {f : σ → α → Except ε σ} :
    (x :: xs).foldlM f s = .ok s' ↔ ∃ t, f s x = .ok t ∧ xs.foldlM f t = .ok s' := by
  rw [List.foldlM_cons, bind_eq_ok]

theorem foldlM_append_eq_ok {f : σ → α → Except ε σ} {xs ys : List α} :
    (xs ++ ys).foldlM f s = .ok s' ↔
      ∃ t, xs.foldlM f s = .ok t ∧ ys.foldlM f t = .ok s' := by
  rw [List.foldlM_append, bind_eq_ok]

theorem mapM_cons_eq_ok {f : α → Except ε β} :
    (x :: xs).mapM f = .ok zs ↔ ∃ y ys, f x = .ok y ∧ xs.mapM f = .ok ys ∧ zs = y :: ys := by
  simp only [List.mapM_cons, bind_eq_ok, pure_eq_ok]
  constructor
  · rintro ⟨y, hy, ys, hys, rfl⟩
    exact ⟨y, ys, hy, hys, rfl⟩
  · rintro ⟨y, ys, hy, hys, rfl⟩
    exact ⟨y, hy, ys, hys, rfl⟩

theorem mem_of_mapM_eq_ok {f : α → Except ε β} {xs : List α} (h : xs.mapM f = .ok ys)
    (hy : y ∈ ys) : ∃ x ∈ xs, f x = .ok y := by
  induction xs generalizing ys with
  | nil =>
    rw [List.mapM_nil, pure_eq_ok] at h
    simp [← h] at hy
  | cons x xs ih =>
    simp only [List.mapM_cons, bind_eq_ok, pure_eq_ok] at h
    obtain ⟨z, hz, zs, hzs, rfl⟩ := h
    rcases List.mem_cons.mp hy with rfl | hy
    · exact ⟨x, List.mem_cons_self, hz⟩
    · obtain ⟨x', hx', hf⟩ := ih hzs hy
      exact ⟨x', List.mem_cons_of_mem _ hx', hf⟩

end Fallible
