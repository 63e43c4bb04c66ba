import Mathlib.Algebra.BigOperators.Group.List.Basic
import Mathlib.Algebra.Order.Ring.Nat
import Mathlib.Data.List.GetD
import Mathlib.Data.List.Induction
import Mathlib.Data.Set.Function

namespace Mountain
set_option autoImplicit true

variable {α : Type*}

/-- The nodes of a perfect binary tree. -/
def width (height : Nat) : Nat := 2 ^ (height + 1) - 1

theorem width_pos (h : Nat) : 0 < width h := by
  have := Nat.one_lt_two_pow (Nat.succ_ne_zero h)
  rw [width]
  omega

theorem width_succ (h : Nat) : width (h + 1) = 2 * width h + 1 := by
  have := Nat.two_pow_pos (h + 1)
  rw [width, width, Nat.pow_succ]
  omega

theorem width_le (h : j ≤ k) : width j ≤ width k := by
  have : 2 ^ (j + 1) ≤ 2 ^ (k + 1) := Nat.pow_le_pow_right (by decide) (by omega)
  rw [width, width]
  omega

theorem lt_width (h : Nat) : h < width h := by
  have := @Nat.lt_two_pow_self (h + 1)
  rw [width]
  omega

theorem width_lt (h : k < b) : width k < 2 ^ b := by
  have hpow : 2 ^ (k + 1) ≤ 2 ^ b := Nat.pow_le_pow_right (by decide) h
  have := Nat.two_pow_pos (k + 1)
  rw [width]
  omega

/-- The nodes of a row of perfect trees of these heights. -/
def span (heights : List Nat) : Nat := (heights.map width).sum

@[simp] theorem span_nil : span [] = 0 := rfl

@[simp] theorem span_cons (h : Nat) (hs : List Nat) : span (h :: hs) = width h + span hs := rfl

@[simp] theorem span_append (hs ks : List Nat) : span (hs ++ ks) = span hs + span ks := by
  rw [span, List.map_append, List.sum_append, span, span]

@[simp] theorem span_reverse (hs : List Nat) : span hs.reverse = span hs := by
  rw [span, List.map_reverse, List.sum_reverse, span]

theorem span_lt (hf : hs.Pairwise (· > ·)) (hb : ∀ h ∈ hs, h < k) : span hs < width k := by
  induction hs generalizing k with
  | nil => exact width_pos k
  | cons h hs ih =>
    obtain ⟨hh, hf⟩ := List.pairwise_cons.mp hf
    have hlt := ih hf hh
    have hle := width_le (Nat.succ_le_of_lt (hb h List.mem_cons_self))
    rw [width_succ] at hle
    rw [span_cons]
    omega

/-- Where the roots of a row of trees stand, in post-order; the last tree comes first. -/
def crown : List Nat → List Nat
  | [] => []
  | h :: hs => (span (h :: hs) - 1) :: crown hs

@[simp] theorem length_crown (hs : List Nat) : (crown hs).length = hs.length := by
  induction hs with
  | nil => rfl
  | cons h hs ih => rw [crown, List.length_cons, ih, List.length_cons]

theorem crown_lt (h : c ∈ crown hs) : c < span hs := by
  induction hs with
  | nil => exact absurd h List.not_mem_nil
  | cons h' hs ih =>
    have hw := width_pos h'
    rw [span_cons]
    rcases List.mem_cons.mp h with rfl | h
    · rw [span_cons]
      omega
    · have := ih h
      omega

theorem crown_between (h : c ∈ crown (gs ++ k :: hs)) :
    c < span hs ∨ span hs + width k ≤ c + 1 := by
  induction gs with
  | nil =>
    rcases List.mem_cons.mp h with rfl | h
    · rw [span_cons]
      omega
    · exact .inl (crown_lt h)
  | cons g gs ih =>
    rcases List.mem_cons.mp h with rfl | h
    · have := width_pos g
      simp only [List.append_eq, span_cons, span_append]
      omega
    · exact ih h

theorem mem_crown (gs : List Nat) (k : Nat) (hs : List Nat) :
    span hs + width k - 1 ∈ crown (gs ++ k :: hs) := by
  induction gs with
  | nil =>
    rw [Nat.add_comm, ← span_cons]
    exact List.mem_cons_self
  | cons g gs ih => exact List.mem_cons_of_mem _ ih

/-- The heights and values at the top of a row of trees, the last tree first. -/
abbrev Crest (α : Type*) := List (Nat × α)

/-- The heights rise from the last tree to the first. -/
def Rising (hs : List Nat) : Prop := hs.Pairwise (· < ·)

section Join

variable (join : α → α → α)

/-- Puts a tree at the end of a row: it joins the last one while their heights agree. -/
def carry : Nat × α → Crest α → Crest α
  | (h, v), [] => [(h, v)]
  | (h, v), (h', v') :: rest =>
    if h' = h then carry (h + 1, join v' v) rest else (h, v) :: (h', v') :: rest

/-- The values of the trees that `carry` joins. -/
def parents : Nat × α → Crest α → List α
  | _, [] => []
  | (h, v), (h', v') :: rest =>
    if h' = h then join v' v :: parents (h + 1, join v' v) rest else []

/-- The value of a whole row: the last root, joined to each root before it. -/
def bag : List α → Option α
  | [] => none
  | v :: vs => some (vs.foldl (fun acc x => join x acc) v)

theorem rising_carry {f : Crest α} (hf : Rising (f.map Prod.fst)) (hb : ∀ p ∈ f, h ≤ p.1) :
    Rising ((carry join (h, v) f).map Prod.fst) ∧ ∀ p ∈ carry join (h, v) f, h ≤ p.1 := by
  induction f generalizing h v with
  | nil => simp [carry, Rising]
  | cons p rest ih =>
    obtain ⟨h', v'⟩ := p
    obtain ⟨hlt, hrest⟩ := List.pairwise_cons.mp hf
    have hle : h ≤ h' := hb (h', v') List.mem_cons_self
    have hnext (p : Nat × α) (hp : p ∈ rest) : h' < p.1 := hlt p.1 (List.mem_map_of_mem hp)
    rw [carry]
    split
    · rename_i he
      subst he
      obtain ⟨h1, h2⟩ := ih (h := h' + 1) (v := join v' v) hrest hnext
      exact ⟨h1, fun p hp => Nat.le_of_succ_le (h2 p hp)⟩
    · rename_i hne
      have hgt : h < h' := Nat.lt_of_le_of_ne hle (Ne.symm hne)
      refine ⟨List.pairwise_cons.mpr ⟨?_, hf⟩, ?_⟩
      · intro k hk
        rcases List.mem_cons.mp hk with rfl | hk
        · exact hgt
        · exact hgt.trans (hlt k hk)
      · intro p hp
        rcases List.mem_cons.mp hp with rfl | hp
        · exact Nat.le_refl h
        · exact hb p hp

end Join

/-- The leaves under a row of perfect trees of these heights. -/
def count (hs : List Nat) : Nat := (hs.map (2 ^ ·)).sum

@[simp] theorem count_cons (h : Nat) (hs : List Nat) : count (h :: hs) = 2 ^ h + count hs := rfl

@[simp] theorem count_reverse (hs : List Nat) : count hs.reverse = count hs := by
  rw [count, List.map_reverse, List.sum_reverse, count]

theorem count_carry (join : α → α → α) (h : Nat) (v : α) (f : Crest α) :
    count ((carry join (h, v) f).map Prod.fst) = 2 ^ h + count (f.map Prod.fst) := by
  induction f generalizing h v with
  | nil => rfl
  | cons p rest ih =>
    obtain ⟨h', v'⟩ := p
    rw [carry]
    split
    · rename_i he
      subst he
      rw [ih, Nat.pow_succ, List.map_cons]
      simp only [count, List.map_cons, List.sum_cons]
      omega
    · rfl

/-- Post-order nodes whose tree tops are these; what lies inside the trees is not said. -/
inductive Crowned : Crest α → List α → Prop
  | nil : Crowned [] []
  | snoc (below : Crowned f nodes) (inner : List α) (hw : inner.length + 1 = width h) (v : α) :
    Crowned ((h, v) :: f) (nodes ++ (inner ++ [v]))

namespace Crowned

theorem length {nodes : List α} (c : Crowned f nodes) :
    nodes.length = span (f.map Prod.fst) := by
  induction c with
  | nil => rfl
  | snoc below inner hw v ih =>
    rw [List.length_append, ih, List.length_append, List.length_singleton, hw, List.map_cons,
      span_cons, Nat.add_comm]

theorem carry {nodes : List α} (join : α → α → α) (c : Crowned f nodes) (inner : List α)
    (hw : inner.length + 1 = width h) (v : α) :
    Crowned (Mountain.carry join (h, v) f) (nodes ++ (inner ++ [v]) ++ parents join (h, v) f) := by
  induction c generalizing h inner v with
  | nil => simpa [Mountain.carry, parents] using snoc nil inner hw v
  | @snoc f nodes h' below inner' hw' v' ih =>
    rw [Mountain.carry, parents]
    split
    · rename_i he
      subst he
      have hjoin : (inner' ++ [v'] ++ (inner ++ [v])).length + 1 = width (h' + 1) := by
        simp only [List.length_append, List.length_singleton]
        rw [width_succ]
        omega
      have := ih _ hjoin (join v' v)
      simpa only [List.append_assoc, List.cons_append, List.nil_append] using this
    · rw [List.append_nil]
      exact snoc (snoc below inner' hw' v') inner hw v

theorem map_crown {nodes : List α} (c : Crowned f nodes) (more : List α) (d : α) :
    (crown (f.map Prod.fst)).map (fun p => (nodes ++ more).getD p d) = f.map Prod.snd := by
  induction c generalizing more with
  | nil => rfl
  | @snoc f nodes h below inner hw v ih =>
    have hlen := below.length
    have hpos : span ((h :: f.map Prod.fst)) - 1 = nodes.length + inner.length := by
      rw [span_cons, ← hlen]
      omega
    rw [List.map_cons, crown, List.map_cons, hpos, List.append_assoc nodes, ih, List.map_cons]
    congr 1
    rw [List.getD_append_right _ _ _ _ (Nat.le_add_right _ _), Nat.add_sub_cancel_left,
      List.append_assoc, List.getD_append_right _ _ _ _ (Nat.le_refl _), Nat.sub_self]
    rfl

end Crowned

theorem carry_head (join : α → α → α) (h : Nat) (v : α) (f : Crest α) :
    ∃ w rest, carry join (h, v) f = (h + (parents join (h, v) f).length, w) :: rest := by
  induction f generalizing h v with
  | nil => exact ⟨v, [], rfl⟩
  | cons p rest ih =>
    obtain ⟨h', v'⟩ := p
    rw [carry, parents]
    split
    · obtain ⟨w, rest', he⟩ := ih (h + 1) (join v' v)
      refine ⟨w, rest', ?_⟩
      rw [he, List.length_cons, Nat.add_assoc h, Nat.add_comm 1]
    · exact ⟨v, _, rfl⟩

/-- A binary tree with its values at the leaves. -/
inductive HashTree (α : Type*) where
  | leaf (a : α)
  | node (left right : HashTree α)

namespace HashTree

def height : HashTree α → Nat
  | leaf _ => 0
  | node left _ => left.height + 1

def leaves : HashTree α → List α
  | leaf a => [a]
  | node left right => left.leaves ++ right.leaves

/-- All leaves lie equally deep. -/
inductive Perfect : Nat → HashTree α → Prop
  | leaf (a : α) : Perfect 0 (.leaf a)
  | node (hl : Perfect h left) (hr : Perfect h right) : Perfect (h + 1) (.node left right)

variable (join : α → α → α)

def root : HashTree α → α
  | leaf a => a
  | node left right => join left.root right.root

def postorder : HashTree α → List α
  | leaf a => [a]
  | node left right =>
    left.postorder ++ (right.postorder ++ [join (left.root join) (right.root join)])

theorem length_postorder {t : HashTree α} (p : t.Perfect h) :
    (t.postorder join).length = width h := by
  induction p with
  | leaf a => rfl
  | node hl hr ihl ihr =>
    rw [postorder, List.length_append, List.length_append, List.length_singleton, ihl, ihr,
      width_succ]
    omega

theorem postorder_last (t : HashTree α) : ∃ inner, t.postorder join = inner ++ [t.root join] := by
  cases t with
  | leaf a => exact ⟨[], rfl⟩
  | node left right =>
    exact ⟨left.postorder join ++ right.postorder join, (List.append_assoc _ _ _).symm⟩

def top (t : HashTree α) : Nat × α := (t.height, t.root join)

end HashTree

/-- Puts a tree at the end of a row, the last tree first, joining equal heights. -/
def graft : HashTree α → List (HashTree α) → List (HashTree α)
  | t, [] => [t]
  | t, u :: rest => if u.height = t.height then graft (.node u t) rest else t :: u :: rest

/-- The nodes of a row in post-order. -/
def rowNodes (join : α → α → α) : List (HashTree α) → List α
  | [] => []
  | t :: row => rowNodes join row ++ t.postorder join

/-- The leaves of a row, left to right. -/
def rowLeaves : List (HashTree α) → List α
  | [] => []
  | t :: row => rowLeaves row ++ t.leaves

def Row (row : List (HashTree α)) : Prop := ∀ t ∈ row, t.Perfect t.height

theorem Row.graft {row : List (HashTree α)} (hr : Row row) (ht : t.Perfect t.height) :
    Row (graft t row) := by
  induction row generalizing t with
  | nil => simpa [Mountain.graft, Row] using ht
  | cons u rest ih =>
    obtain ⟨hu, hrest⟩ := List.forall_mem_cons.mp hr
    rw [Mountain.graft]
    split
    · rename_i he
      rw [← he] at ht
      exact ih hrest (.node hu ht)
    · exact List.forall_mem_cons.mpr ⟨ht, hr⟩

theorem rowLeaves_graft (t : HashTree α) (row : List (HashTree α)) :
    rowLeaves (graft t row) = rowLeaves row ++ t.leaves := by
  induction row generalizing t with
  | nil => rfl
  | cons u rest ih =>
    rw [graft]
    split
    · rw [ih, HashTree.leaves, rowLeaves, List.append_assoc]
    · rfl

theorem top_graft (join : α → α → α) (t : HashTree α) (row : List (HashTree α)) :
    (graft t row).map (HashTree.top join) =
      carry join (t.top join) (row.map (HashTree.top join)) := by
  induction row generalizing t with
  | nil => rfl
  | cons u rest ih =>
    rw [graft, List.map_cons, HashTree.top, HashTree.top, carry]
    split
    · rename_i he
      rw [ih, HashTree.top, HashTree.height, HashTree.root, he]
    · rfl

theorem rowNodes_graft (join : α → α → α) (t : HashTree α) (row : List (HashTree α)) :
    rowNodes join (graft t row) = rowNodes join row ++ t.postorder join ++
      parents join (t.top join) (row.map (HashTree.top join)) := by
  induction row generalizing t with
  | nil => exact (List.append_nil _).symm
  | cons u rest ih =>
    rw [graft, List.map_cons, HashTree.top, HashTree.top, parents]
    split
    · rename_i he
      rw [ih, HashTree.top, HashTree.height, HashTree.root, he, HashTree.postorder, rowNodes]
      simp only [List.append_assoc, List.singleton_append]
    · exact (List.append_nil _).symm

theorem rowNodes_append (join : α → α → α) (front back : List (HashTree α)) :
    rowNodes join (front ++ back) = rowNodes join back ++ rowNodes join front := by
  induction front with
  | nil => exact (List.append_nil _).symm
  | cons t front ih => rw [List.cons_append, rowNodes, ih, rowNodes, List.append_assoc]

theorem rowNodes_eq_flatMap (join : α → α → α) (row : List (HashTree α)) :
    rowNodes join row = row.reverse.flatMap (HashTree.postorder join) := by
  induction row with
  | nil => rfl
  | cons t row ih => simp [rowNodes, ih]

theorem rowLeaves_eq_flatMap (row : List (HashTree α)) :
    rowLeaves row = row.reverse.flatMap HashTree.leaves := by
  induction row with
  | nil => rfl
  | cons t row ih => simp [rowLeaves, ih]

theorem exists_tree (join : α → α → α) {row : List (HashTree α)}
    (hpos : pos < (rowNodes join row).length) :
    ∃ front t back q, row = front ++ t :: back ∧ pos = (rowNodes join back).length + q ∧
      q < (t.postorder join).length := by
  induction row with
  | nil => exact absurd hpos (Nat.not_lt_zero _)
  | cons t row ih =>
    rw [rowNodes, List.length_append] at hpos
    rcases Nat.lt_or_ge pos (rowNodes join row).length with hlt | hge
    · obtain ⟨front, u, back, q, rfl, h⟩ := ih hlt
      exact ⟨t :: front, u, back, q, rfl, h⟩
    · exact ⟨[], t, row, pos - (rowNodes join row).length, rfl, by omega, by omega⟩

theorem crowned_row (join : α → α → α) {row : List (HashTree α)} (hr : Row row) :
    Crowned (row.map (HashTree.top join)) (rowNodes join row) := by
  induction row with
  | nil => exact .nil
  | cons t rest ih =>
    obtain ⟨ht, hrest⟩ := List.forall_mem_cons.mp hr
    obtain ⟨inner, hi⟩ := t.postorder_last join
    have hlen := HashTree.length_postorder join ht
    rw [hi, List.length_append, List.length_singleton] at hlen
    rw [rowNodes, hi]
    exact (ih hrest).snoc inner hlen (t.root join)

namespace HashTree

/-- The subtree under a path: at each node to the left where the sibling is on the right. -/
def descend : List Bool → HashTree α → Option (HashTree α)
  | [], t => some t
  | _ :: _, leaf _ => none
  | true :: path, node left _ => descend path left
  | false :: path, node _ right => descend path right

/-- Which of the leaves a path leads to. -/
def leafIndex : List Bool → HashTree α → Option Nat
  | [], leaf _ => some 0
  | [], node _ _ => none
  | _ :: _, leaf _ => none
  | true :: path, node left _ => leafIndex path left
  | false :: path, node left right => (leafIndex path right).map (left.leaves.length + ·)

theorem leafIndex_of_descend {t : HashTree α} (h : t.descend path = some (.leaf a)) :
    ∃ k, t.leafIndex path = some k ∧ t.leaves[k]? = some a := by
  induction path generalizing t with
  | nil =>
    rw [Option.some.inj h]
    exact ⟨0, rfl, rfl⟩
  | cons side path ih =>
    cases t with
    | leaf b => exact absurd h (by cases side <;> simp [descend])
    | node left right =>
      cases side with
      | true =>
        obtain ⟨k, hk, hget⟩ := ih h
        refine ⟨k, hk, ?_⟩
        rw [leaves, List.getElem?_append_left (List.getElem?_eq_some_iff.mp hget).1, hget]
      | false =>
        obtain ⟨k, hk, hget⟩ := ih h
        refine ⟨left.leaves.length + k, by rw [leafIndex, hk]; rfl, ?_⟩
        rw [leaves, List.getElem?_append_right (Nat.le_add_right _ _), Nat.add_sub_cancel_left,
          hget]

theorem descend_of_leafIndex {t : HashTree α} (h : t.leafIndex path = some k) :
    ∃ a, t.descend path = some (.leaf a) := by
  induction path generalizing t k with
  | nil =>
    cases t with
    | leaf a => exact ⟨a, rfl⟩
    | node left right => cases h
  | cons side path ih =>
    cases t with
    | leaf b => exact absurd h (by cases side <;> simp [leafIndex])
    | node left right =>
      cases side with
      | true => exact ih h
      | false =>
        obtain ⟨k', hk', _⟩ := Option.map_eq_some_iff.mp h
        exact ih hk'

/-- The pairs of values joined in a tree. -/
def pairs (join : α → α → α) : HashTree α → Set (α × α)
  | leaf _ => ∅
  | node left right => insert (left.root join, right.root join) (left.pairs join ∪ right.pairs join)

end HashTree

/-- One turn of a climb, past a sibling and whether it is on the right. -/
def above (join : α → α → α) (x : α) (sibling : α × Bool) : α :=
  if sibling.2 then join x sibling.1 else join sibling.1 x

/-- The pairs of values joined in a climb. -/
def climbPairs (join : α → α → α) : α → List (α × Bool) → Set (α × α)
  | _, [] => ∅
  | x, e :: es => insert (if e.2 then (x, e.1) else (e.1, x)) (climbPairs join (above join x e) es)

theorem climbPairs_append (join : α → α → α) (x : α) (es fs : List (α × Bool)) :
    climbPairs join x (es ++ fs) =
      climbPairs join x es ∪ climbPairs join (es.foldl (above join) x) fs := by
  induction es generalizing x with
  | nil => exact (Set.empty_union _).symm
  | cons e es ih =>
    rw [List.cons_append, climbPairs, ih, climbPairs, List.foldl_cons, Set.insert_union]

/-- Where no two joined pairs agree and no leaf is a join, a climb to a tree's root started
in the tree, at the place its own sides lead to. -/
theorem descend_of_climb {join : α → α → α} {t : HashTree α}
    (hinj : Set.InjOn (fun p : α × α => join p.1 p.2) (t.pairs join ∪ climbPairs join x es))
    (hout : ∀ a ∈ t.leaves, ∀ b c, join b c ≠ a) (h : es.foldl (above join) x = t.root join) :
    ∃ s, t.descend (es.reverse.map Prod.snd) = some s ∧ s.root join = x := by
  induction es using List.reverseRecOn generalizing t with
  | nil => exact ⟨t, rfl, h.symm⟩
  | append_singleton es e ih =>
    obtain ⟨sibling, side⟩ := e
    rw [List.foldl_append, List.foldl_cons, List.foldl_nil] at h
    rw [climbPairs_append] at hinj
    cases t with
    | leaf a => exact absurd h (by cases side <;> exact hout a List.mem_cons_self _ _)
    | node left right =>
      have hleft := fun a ha => hout a (List.mem_append_left _ ha)
      have hright := fun a ha => hout a (List.mem_append_right _ ha)
      have hroot : (left.root join, right.root join) ∈
          HashTree.pairs join (.node left right) ∪ (climbPairs join x es ∪
            climbPairs join (es.foldl (above join) x) [(sibling, side)]) :=
        .inl (Set.mem_insert _ _)
      have hlast : (if side then (es.foldl (above join) x, sibling)
          else (sibling, es.foldl (above join) x)) ∈
          HashTree.pairs join (.node left right) ∪ (climbPairs join x es ∪
            climbPairs join (es.foldl (above join) x) [(sibling, side)]) :=
        .inr (.inr (Set.mem_insert _ _))
      rw [List.reverse_append, List.map_append]
      cases side with
      | true =>
        have hpair := hinj hlast hroot h
        apply ih _ hleft (congrArg Prod.fst hpair)
        exact hinj.mono (Set.union_subset_union
          (Set.subset_union_left.trans (Set.subset_insert _ _)) Set.subset_union_left)
      | false =>
        have hpair := hinj hlast hroot h
        apply ih _ hright (congrArg Prod.snd hpair)
        exact hinj.mono (Set.union_subset_union
          (Set.subset_union_right.trans (Set.subset_insert _ _)) Set.subset_union_left)

/-- A row as one tree: the last tree, under each tree before it in turn. -/
def bagTree : List (HashTree α) → Option (HashTree α)
  | [] => none
  | t :: row => some (row.foldl (fun acc u => .node u acc) t)

theorem root_bagTree (join : α → α → α) (row : List (HashTree α)) :
    (bagTree row).map (HashTree.root join) = bag join (row.map (HashTree.root join)) := by
  cases row with
  | nil => rfl
  | cons t row =>
    rw [bagTree, Option.map_some, List.map_cons, bag, List.foldl_map]
    congr 1
    induction row generalizing t with
    | nil => rfl
    | cons u row ih => exact ih (.node u t)

theorem leaves_bagTree {row : List (HashTree α)} (h : bagTree row = some t) :
    t.leaves = rowLeaves row := by
  cases row with
  | nil => cases h
  | cons u row =>
    rw [← Option.some.inj h]
    clear h
    induction row generalizing u with
    | nil => rfl
    | cons v row ih =>
      rw [List.foldl_cons, ih, rowLeaves, rowLeaves, rowLeaves, HashTree.leaves, List.append_assoc]

end Mountain
