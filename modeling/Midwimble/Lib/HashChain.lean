import Mathlib.Data.List.Induction
import Mathlib.Data.Set.Function

namespace HashChain
set_option autoImplicit true

variable {M W : Type*}

/-- The state a list of words is folded into, one hash a word. -/
def fold (f : M → W → M) (m : M) (ws : List W) : M := ws.foldl f m

/-- The pairs hashed on the way. -/
def links (f : M → W → M) (m : M) : List W → List (M × W)
  | [] => []
  | w :: ws => (m, w) :: links f (f m w) ws

theorem fold_append (f : M → W → M) (m : M) (ws vs : List W) :
    fold f m (ws ++ vs) = fold f (fold f m ws) vs := List.foldl_append

theorem links_append (f : M → W → M) (m : M) (ws vs : List W) :
    links f m (ws ++ vs) = links f m ws ++ links f (fold f m ws) vs := by
  induction ws generalizing m with
  | nil => rfl
  | cons w ws ih => rw [List.cons_append, links, ih, links, List.cons_append]; rfl

theorem mem_links_concat {f : M → W → M} : (fold f m ws, w) ∈ links f m (ws ++ [w]) := by
  rw [links_append]
  exact List.mem_append_right _ List.mem_cons_self

theorem links_concat_subset {f : M → W → M} : links f m ws ⊆ links f m (ws ++ [w]) := by
  rw [links_append]
  exact List.subset_append_left _ _

theorem fold_binds {f : M → W → M} {ws vs : List W}
    (hinj : Set.InjOn (fun p : M × W => f p.1 p.2)
      {p | p ∈ links f m ws ∨ p ∈ links f n vs}) (h : fold f m ws = fold f n vs) :
    (∃ front, vs = front ++ ws ∧ m = fold f n front) ∨
      ∃ front, ws = front ++ vs ∧ n = fold f m front := by
  induction ws using List.reverseRecOn generalizing vs with
  | nil => exact .inl ⟨vs, (List.append_nil vs).symm, h⟩
  | append_singleton ws w ih =>
    rcases List.eq_nil_or_concat vs with rfl | ⟨vs, v, rfl⟩
    · exact .inr ⟨ws ++ [w], (List.append_nil _).symm, h.symm⟩
    · rw [List.concat_eq_append] at hinj h ⊢
      rw [fold_append, fold_append] at h
      have hpair := hinj (.inl mem_links_concat) (.inr mem_links_concat) h
      obtain ⟨hstate, rfl⟩ := Prod.mk.inj hpair
      have hrest : Set.InjOn (fun p : M × W => f p.1 p.2)
          {p | p ∈ links f m ws ∨ p ∈ links f n vs} := by
        apply hinj.mono
        rintro p (hp | hp)
        · exact .inl (links_concat_subset hp)
        · exact .inr (links_concat_subset hp)
      rcases ih hrest hstate with ⟨front, rfl, hm⟩ | ⟨front, rfl, hn⟩
      · exact .inl ⟨front, List.append_assoc _ _ _, hm⟩
      · exact .inr ⟨front, List.append_assoc _ _ _, hn⟩

end HashChain
