import Mathlib.Data.BitVec
import Mathlib.Data.Set.Function

namespace SparseTree
set_option autoImplicit true

variable {w : Nat}

/-- In a hash tree over all keys of a fixed width: keys that have the same bits from `h` up, so
lie below one node of height `h`. -/
def Agrees (h : Nat) (p q : BitVec w) : Prop := ∀ i, h ≤ i → p.getLsbD i = q.getLsbD i

theorem Agrees.refl (h : Nat) (p : BitVec w) : Agrees h p p := fun _ _ => rfl

theorem Agrees.symm {p q : BitVec w} (a : Agrees h p q) : Agrees h q p :=
  fun i hi => (a i hi).symm

theorem Agrees.trans {p q r : BitVec w} (a : Agrees h p q) (b : Agrees h q r) : Agrees h p r :=
  fun i hi => (a i hi).trans (b i hi)

theorem Agrees.mono {p q : BitVec w} (a : Agrees h p q) (hle : h ≤ h') : Agrees h' p q :=
  fun i hi => a i (hle.trans hi)

theorem agrees_zero {p q : BitVec w} : Agrees 0 p q ↔ p = q :=
  ⟨fun a => BitVec.eq_of_getLsbD_eq fun i _ => a i (Nat.zero_le i), fun h => h ▸ .refl 0 p⟩

theorem agrees_width (p q : BitVec w) : Agrees w p q := fun i hi => by
  rw [BitVec.getLsbD_of_ge p i hi, BitVec.getLsbD_of_ge q i hi]

theorem agrees_succ {p q : BitVec w} :
    Agrees h p q ↔ p.getLsbD h = q.getLsbD h ∧ Agrees (h + 1) p q := by
  refine ⟨fun a => ⟨a h (Nat.le_refl h), a.mono (Nat.le_succ h)⟩, fun ⟨hb, a⟩ i hi => ?_⟩
  rcases Nat.eq_or_lt_of_le hi with rfl | hlt
  · exact hb
  · exact a i hlt

/-- The key with bit `h` the other way. -/
def flip (p : BitVec w) (h : Nat) : BitVec w := p ^^^ BitVec.twoPow w h

theorem getLsbD_flip (p : BitVec w) (hh : h < w) (i : Nat) :
    (flip p h).getLsbD i = (p.getLsbD i ^^ decide (h = i)) := by
  rw [flip, BitVec.getLsbD_xor, BitVec.getLsbD_twoPow, decide_eq_true hh, Bool.true_and]

theorem agrees_flip (p : BitVec w) (hh : h < w) : Agrees (h + 1) (flip p h) p := by
  intro i hi
  rw [getLsbD_flip p hh, decide_eq_false (by omega), Bool.xor_false]

/-- The key with bit `h` set to `b`. -/
def put (p : BitVec w) (h : Nat) (b : Bool) : BitVec w := if p.getLsbD h = b then p else flip p h

theorem getLsbD_put (p : BitVec w) (hh : h < w) (b : Bool) : (put p h b).getLsbD h = b := by
  unfold put
  split
  · assumption
  · rename_i hne
    rw [getLsbD_flip p hh, decide_eq_true rfl, Bool.xor_true]
    exact (Bool.eq_not_of_ne (Ne.symm hne)).symm

theorem agrees_put (p : BitVec w) (hh : h < w) (b : Bool) : Agrees (h + 1) (put p h b) p := by
  unfold put
  split
  · exact .refl _ p
  · exact agrees_flip p hh

theorem agrees_put_iff {p q : BitVec w} (hh : h < w) :
    Agrees h q (put p h b) ↔ q.getLsbD h = b ∧ Agrees (h + 1) q p := by
  rw [agrees_succ, getLsbD_put p hh]
  refine and_congr_right fun _ => ⟨fun a => a.trans (agrees_put p hh b), fun a => ?_⟩
  exact a.trans (agrees_put p hh b).symm

variable {V : Type*} (node : V → V → V) (leaf : BitVec w → V) (blank : V)

/-- The value of an empty subtree. -/
def empty : Nat → V
  | 0 => blank
  | h + 1 => node (empty h) (empty h)

open Classical in
/-- The value of the subtree of height `h` above `p`, in the tree over the keys of `s`. -/
noncomputable def value (s : Set (BitVec w)) : Nat → BitVec w → V
  | 0, p => if p ∈ s then leaf p else blank
  | h + 1, p => node (value s h (put p h false)) (value s h (put p h true))

variable {node leaf blank} {s t : Set (BitVec w)}

theorem value_congr {p : BitVec w} (hh : h ≤ w) (hst : ∀ c, Agrees h c p → (c ∈ s ↔ c ∈ t)) :
    value node leaf blank s h p = value node leaf blank t h p := by
  induction h generalizing p with
  | zero =>
    have hiff := hst p (.refl 0 p)
    rw [value, value]
    by_cases hp : p ∈ s
    · rw [if_pos hp, if_pos (hiff.mp hp)]
    · rw [if_neg hp, if_neg (mt hiff.mpr hp)]
  | succ h ih =>
    have hchild : ∀ b, value node leaf blank s h (put p h b) =
        value node leaf blank t h (put p h b) := fun b =>
      ih (by omega) fun c hc => hst c ((agrees_put_iff hh).mp hc).2
    rw [value, value, hchild, hchild]

theorem value_agrees {p q : BitVec w} (hh : h ≤ w) (a : Agrees h p q) :
    value node leaf blank s h p = value node leaf blank s h q := by
  induction h generalizing p q with
  | zero => rw [agrees_zero.mp a]
  | succ h ih =>
    have hchild : ∀ b, value node leaf blank s h (put p h b) =
        value node leaf blank s h (put q h b) := fun b =>
      ih (by omega) ((agrees_put_iff hh).mpr
        ⟨getLsbD_put p hh b, (agrees_put p hh b).trans a⟩)
    rw [value, value, hchild, hchild]

theorem value_blank {p : BitVec w} (hh : h ≤ w)
    (hs : ∀ c, Agrees h c p → c ∈ s → leaf c = blank) :
    value node leaf blank s h p = empty node blank h := by
  induction h generalizing p with
  | zero =>
    rw [value, empty]
    split
    · exact hs p (.refl 0 p) ‹_›
    · rfl
  | succ h ih =>
    have hchild : ∀ b, value node leaf blank s h (put p h b) = empty node blank h := fun b =>
      ih (by omega) fun c hc => hs c ((agrees_put_iff hh).mp hc).2
    rw [value, hchild, hchild, empty]

theorem value_empty {p : BitVec w} (hh : h ≤ w) (hs : ∀ c, Agrees h c p → c ∉ s) :
    value node leaf blank s h p = empty node blank h :=
  value_blank hh fun c a hcs => absurd hcs (hs c a)

theorem value_succ (p : BitVec w) :
    value node leaf blank s (h + 1) p =
      if p.getLsbD h then node (value node leaf blank s h (flip p h)) (value node leaf blank s h p)
      else node (value node leaf blank s h p) (value node leaf blank s h (flip p h)) := by
  rw [value]
  unfold put
  cases hb : p.getLsbD h <;> simp

/-- The pairs of children hashed in the tree over `s`. -/
def pairs (node : V → V → V) (leaf : BitVec w → V) (blank : V) (s : Set (BitVec w)) :
    Set (V × V) :=
  {x | ∃ h < w, ∃ p : BitVec w,
    x = (value node leaf blank s h (put p h false), value node leaf blank s h (put p h true))}

theorem mem_pairs (hh : h < w) (p : BitVec w) :
    (value node leaf blank s h (put p h false), value node leaf blank s h (put p h true)) ∈
      pairs node leaf blank s :=
  ⟨h, hh, p, rfl⟩

/-- A hash without collisions on these pairs of children. -/
def CollisionFree (node : V → V → V) (x : Set (V × V)) : Prop :=
  Set.InjOn (fun p => node p.1 p.2) x

theorem mem_iff_of_value_eq {p : BitVec w} (hh : h ≤ w)
    (hc : CollisionFree node (pairs node leaf blank s ∪ pairs node leaf blank t))
    (hs : ∀ c ∈ s, leaf c ≠ blank) (ht : ∀ c ∈ t, leaf c ≠ blank)
    (he : value node leaf blank s h p = value node leaf blank t h p) (a : Agrees h c p) :
    c ∈ s ↔ c ∈ t := by
  induction h generalizing p with
  | zero =>
    obtain rfl := agrees_zero.mp a
    rw [value, value] at he
    by_cases hcs : c ∈ s <;> by_cases hct : c ∈ t <;> simp only [hcs, hct, if_true, if_false] at he ⊢
    · exact absurd he (hs c hcs)
    · exact absurd he.symm (ht c hct)
  | succ h ih =>
    have hchildren := hc (.inl (mem_pairs hh p)) (.inr (mem_pairs hh p)) he
    have hb : ∀ b, value node leaf blank s h (put p h b) =
        value node leaf blank t h (put p h b)
      | false => congrArg Prod.fst hchildren
      | true => congrArg Prod.snd hchildren
    exact ih (by omega) (hb (c.getLsbD h)) ((agrees_put_iff hh).mpr ⟨rfl, a⟩)

theorem eq_of_root_eq {p : BitVec w}
    (hc : CollisionFree node (pairs node leaf blank s ∪ pairs node leaf blank t))
    (hs : ∀ c ∈ s, leaf c ≠ blank) (ht : ∀ c ∈ t, leaf c ≠ blank)
    (he : value node leaf blank s w p = value node leaf blank t w p) : s = t :=
  Set.ext fun c => mem_iff_of_value_eq (Nat.le_refl w) hc hs ht he (agrees_width c p)

theorem value_eq_empty_iff {p : BitVec w} (hh : h ≤ w)
    (hc : CollisionFree node (pairs node leaf blank s ∪ pairs node leaf blank ∅))
    (hs : ∀ c ∈ s, leaf c ≠ blank) :
    value node leaf blank s h p = empty node blank h ↔ ∀ c, Agrees h c p → c ∉ s := by
  refine ⟨fun he c a hcs => ?_, value_empty hh⟩
  have hempty : value node leaf blank ∅ h p = empty node blank h :=
    value_empty hh fun _ _ => Set.notMem_empty _
  have hiff := mem_iff_of_value_eq hh hc hs (fun _ h => absurd h (Set.notMem_empty _))
    (he.trans hempty.symm) a
  exact Set.notMem_empty c (hiff.mp hcs)

/-- The value climbing a key's path reaches from height `h`, given the siblings on the way. -/
def climb (node : V → V → V) (c : BitVec w) : Nat → List V → V → V
  | _, [], x => x
  | h, sibling :: rest, x =>
    climb node c (h + 1) rest (if c.getLsbD h then node sibling x else node x sibling)

/-- The pairs hashed on the climb. -/
def climbPairs (node : V → V → V) (c : BitVec w) : Nat → List V → V → List (V × V)
  | _, [], _ => []
  | h, sibling :: rest, x =>
    let pair := if c.getLsbD h then (sibling, x) else (x, sibling)
    pair :: climbPairs node c (h + 1) rest (node pair.1 pair.2)

theorem climb_siblings (c : BitVec w) (n : Nat) :
    climb node c h ((List.range' h n).map fun i => value node leaf blank s i (flip c i))
      (value node leaf blank s h c) = value node leaf blank s (h + n) c := by
  induction n generalizing h with
  | zero => rfl
  | succ n ih =>
    rw [List.range'_succ, List.map_cons, climb, ← value_succ, ih]
    congr 1
    omega

theorem climbPairs_siblings (c : BitVec w) (n : Nat) :
    climbPairs node c h ((List.range' h n).map fun i => value node leaf blank s i (flip c i))
      (value node leaf blank s h c) = (List.range' h n).map fun i =>
        (value node leaf blank s i (put c i false), value node leaf blank s i (put c i true)) := by
  induction n generalizing h with
  | zero => rfl
  | succ n ih =>
    have hpair : (if c.getLsbD h
        then (value node leaf blank s h (flip c h), value node leaf blank s h c)
        else (value node leaf blank s h c, value node leaf blank s h (flip c h))) =
          (value node leaf blank s h (put c h false), value node leaf blank s h (put c h true)) := by
      unfold put
      cases c.getLsbD h <;> simp
    rw [List.range'_succ, List.map_cons, climbPairs, hpair, List.map_cons]
    exact congrArg _ (ih (h := h + 1))

theorem pairs_subset (hx : x ∈ pairs node leaf blank s) :
    (∃ h < w, x = (empty node blank h, empty node blank h)) ∨
      ∃ c ∈ s, ∃ h < w,
        x = (value node leaf blank s h (put c h false), value node leaf blank s h (put c h true)) := by
  obtain ⟨h, hh, p, rfl⟩ := hx
  by_cases hc : ∃ c ∈ s, Agrees (h + 1) c p
  · obtain ⟨c, hcs, a⟩ := hc
    have hchild (b : Bool) : value node leaf blank s h (put p h b) =
        value node leaf blank s h (put c h b) :=
      value_agrees (Nat.le_of_lt hh) ((agrees_put_iff hh).mpr
        ⟨getLsbD_put p hh b, (agrees_put p hh b).trans a.symm⟩)
    exact .inr ⟨c, hcs, h, hh, by rw [hchild, hchild]⟩
  · have hchild (b : Bool) : value node leaf blank s h (put p h b) = empty node blank h :=
      value_empty (Nat.le_of_lt hh) fun c a hcs => hc ⟨c, hcs, ((agrees_put_iff hh).mp a).2⟩
    exact .inl ⟨h, hh, by rw [hchild, hchild]⟩

/-- The pairs a tree of one key hashes, listed. -/
def lonePairs (node : V → V → V) (leaf : BitVec w → V) (blank : V) (c : BitVec w) : List (V × V) :=
  (List.range' 0 w).map (fun h => (empty node blank h, empty node blank h)) ++
    climbPairs node c 0 ((List.range' 0 w).map (empty node blank)) (leaf c)

theorem siblings_singleton (c : BitVec w) :
    (List.range' 0 w).map (empty node blank) =
      (List.range' 0 w).map fun i => value node leaf blank {c} i (flip c i) := by
  refine List.map_congr_left fun i hi => ?_
  have hi : i < w := by simpa using hi
  refine (value_empty (Nat.le_of_lt hi) fun d a hd => ?_).symm
  obtain rfl := Set.mem_singleton_iff.mp hd
  have hbit := a i (Nat.le_refl i)
  rw [getLsbD_flip d hi, decide_eq_true rfl, Bool.xor_true] at hbit
  exact (Bool.eq_not_self _).mp hbit

theorem climb_singleton (c : BitVec w) :
    climb node c 0 ((List.range' 0 w).map (empty node blank)) (leaf c) =
      value node leaf blank {c} w c := by
  have hleaf : value node leaf blank {c} 0 c = leaf c := if_pos rfl
  rw [siblings_singleton c, ← hleaf, climb_siblings, Nat.zero_add]

theorem pairs_singleton (c : BitVec w) (hx : x ∈ pairs node leaf blank {c}) :
    x ∈ lonePairs node leaf blank c := by
  have hleaf : value node leaf blank {c} 0 c = leaf c := if_pos rfl
  have hclimb : climbPairs node c 0 ((List.range' 0 w).map (empty node blank)) (leaf c) =
      (List.range' 0 w).map fun i => (value node leaf blank {c} i (put c i false),
        value node leaf blank {c} i (put c i true)) := by
    rw [siblings_singleton c, ← hleaf]
    exact climbPairs_siblings c w
  rw [lonePairs, hclimb, List.mem_append, List.mem_map, List.mem_map]
  rcases pairs_subset hx with ⟨h, hh, rfl⟩ | ⟨d, hd, h, hh, rfl⟩
  · exact .inl ⟨h, by simpa using hh, rfl⟩
  · obtain rfl := Set.mem_singleton_iff.mp hd
    exact .inr ⟨h, by simpa using hh, rfl⟩

theorem pairs_empty (c : BitVec w) (hx : x ∈ pairs node leaf blank ∅) :
    x ∈ lonePairs node leaf blank c := by
  rcases pairs_subset hx with ⟨h, hh, rfl⟩ | ⟨d, hd, -⟩
  · exact List.mem_append_left _ (List.mem_map.mpr ⟨h, by simpa using hh, rfl⟩)
  · exact absurd hd (Set.notMem_empty d)

/-- Without collisions, a climb that reaches the tree's node started at the tree's node. -/
theorem climb_pins {c : BitVec w} {l : List V} (hw : h + l.length ≤ w)
    (hc : CollisionFree node (pairs node leaf blank s ∪ {p | p ∈ climbPairs node c h l x}))
    (he : climb node c h l x = value node leaf blank s (h + l.length) c) :
    x = value node leaf blank s h c := by
  induction l generalizing h x with
  | nil => exact he
  | cons sibling l ih =>
    rw [List.length_cons] at hw he
    have hh : h < w := by omega
    have hrest : CollisionFree node (pairs node leaf blank s ∪
        {p | p ∈ climbPairs node c (h + 1) l
          (if c.getLsbD h then node sibling x else node x sibling)}) := by
      refine hc.mono (Set.union_subset_union_right _ fun p hp => ?_)
      refine List.mem_cons_of_mem _ ?_
      cases hb : c.getLsbD h <;> simpa [hb] using hp
    have hnode := ih (by omega) hrest (by rw [climb] at he; rw [he]; congr 1; omega)
    have hown : ∀ b, value node leaf blank s h (put c h b) =
        if c.getLsbD h = b then value node leaf blank s h c
        else value node leaf blank s h (flip c h) := fun b => by
      unfold put
      split <;> rfl
    have hpair := hc (.inr List.mem_cons_self) (.inl (mem_pairs hh c))
    rw [value] at hnode
    cases hb : c.getLsbD h with
    | false =>
      simp only [hb, Bool.false_eq_true, if_false] at hnode hpair
      have := congrArg Prod.fst (hpair hnode)
      simpa [hown, hb] using this
    | true =>
      simp only [hb, if_true] at hnode hpair
      have := congrArg Prod.snd (hpair hnode)
      simpa [hown, hb] using this

theorem split_of_monotone {q : α → Bool} {l : List α}
    (hl : l.Pairwise fun a b => q a = true → q b = true) :
    l.takeWhile (fun a => !q a) = l.filter (fun a => !q a) ∧
      l.dropWhile (fun a => !q a) = l.filter q := by
  induction l with
  | nil => exact ⟨rfl, rfl⟩
  | cons a l ih =>
    obtain ⟨ha, hl⟩ := List.pairwise_cons.mp hl
    cases hq : q a with
    | false =>
      obtain ⟨ht, hd⟩ := ih hl
      simp only [List.takeWhile_cons, List.dropWhile_cons, List.filter_cons, hq, Bool.not_false,
        if_true, Bool.false_eq_true, if_false, ht, hd, and_self]
    | true =>
      have hall : ∀ b ∈ l, q b = true := fun b hb => ha b hb hq
      have hnone : l.filter (fun a => !q a) = [] := by
        rw [List.filter_eq_nil_iff]
        intro b hb
        simp [hall b hb]
      simp only [List.takeWhile_cons, List.dropWhile_cons, List.filter_cons, hq, Bool.not_true,
        if_true, Bool.false_eq_true, if_false, hnone, List.filter_eq_self.mpr hall, and_self]

theorem Agrees.div_eq {p q : BitVec w} (a : Agrees h p q) :
    p.toNat / 2 ^ h = q.toNat / 2 ^ h := by
  apply Nat.eq_of_testBit_eq
  intro i
  rw [Nat.testBit_div_two_pow, Nat.testBit_div_two_pow]
  exact a (i + h) (Nat.le_add_left h i)

theorem bit_mono {p q : BitVec w} (a : Agrees (h + 1) p q) (hlt : p < q)
    (hp : p.getLsbD h = true) : q.getLsbD h = true := by
  have hdiv := a.div_eq
  have hle : p.toNat / 2 ^ h ≤ q.toNat / 2 ^ h := Nat.div_le_div_right (Nat.le_of_lt hlt)
  rw [Nat.pow_succ, ← Nat.div_div_eq_div_mul, ← Nat.div_div_eq_div_mul] at hdiv
  rw [BitVec.getLsbD, Nat.testBit_eq_decide_div_mod_eq, decide_eq_true_eq] at hp ⊢
  omega

theorem split_sorted {l : List (BitVec w)} {p : BitVec w} (hs : l.Pairwise (· < ·))
    (ha : ∀ c ∈ l, Agrees (h + 1) c p) :
    l.takeWhile (fun c => !c.getLsbD h) = l.filter (fun c => !c.getLsbD h) ∧
      l.dropWhile (fun c => !c.getLsbD h) = l.filter fun c => c.getLsbD h :=
  split_of_monotone <| hs.imp_of_mem fun hc hd hlt =>
    bit_mono ((ha _ hc).trans (ha _ hd).symm) hlt

end SparseTree
