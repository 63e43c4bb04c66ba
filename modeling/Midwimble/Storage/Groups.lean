import Midwimble.Core.Database
import Midwimble.Lib.Diffs

namespace Midwimble
open Fallible OrderedMap
set_option autoImplicit true

variable [Primitives]

/-- What spending some outputs leaves of a group's member. -/
def GroupMember.after (spent : List Point32) : GroupMember → GroupMember
  | .unspent o =>
    if o.commitment ∈ spent then .spent o.commitment o.metadataHash else .unspent o
  | .spent c m => .spent c m

/-- What spending some outputs leaves of a group. -/
def StoredGroup.after (g : StoredGroup) (spent : List Point32) : StoredGroup :=
  ⟨g.rangeProof, g.members.map (GroupMember.after spent)⟩

theorem GroupMember.commitment_after (done : List Point32) (m : GroupMember) :
    (m.after done).commitment = m.commitment := by
  cases m with
  | unspent o =>
    simp only [GroupMember.after]
    split <;> rfl
  | spent c m => rfl

theorem GroupMember.after_eq_unspent {done : List Point32} {m : GroupMember} :
    m.after done = .unspent o ↔ m = .unspent o ∧ o.commitment ∉ done := by
  cases m with
  | unspent o' =>
    by_cases h : o'.commitment ∈ done
    · simp only [GroupMember.after, if_pos h]
      constructor
      · intro he
        cases he
      · rintro ⟨he, hn⟩
        obtain rfl := GroupMember.unspent.inj he
        exact absurd h hn
    · simp only [GroupMember.after, if_neg h]
      constructor
      · intro he
        obtain rfl := GroupMember.unspent.inj he
        exact ⟨rfl, h⟩
      · exact And.left
  | spent c m =>
    constructor
    · intro he
      cases he
    · rintro ⟨he, -⟩
      cases he

theorem GroupMember.after_nil (m : GroupMember) : m.after [] = m := by
  cases m <;> rfl

theorem GroupMember.after_append (m : GroupMember) (done more : List Point32) :
    (m.after done).after more = m.after (done ++ more) := by
  cases m with
  | unspent o =>
    by_cases h : o.commitment ∈ done
    · simp [GroupMember.after, h]
    · simp [GroupMember.after, h]
  | spent c m => rfl

namespace StoredGroup

theorem after_nil (g : StoredGroup) : g.after [] = g := by
  have hmap : g.members.map (GroupMember.after []) = g.members := by
    rw [funext GroupMember.after_nil, List.map_id']
  rw [after, hmap]

theorem after_append (g : StoredGroup) (spent more : List Point32) :
    (g.after spent).after more = g.after (spent ++ more) := by
  rw [after, after, after, List.map_map]
  congr 1
  apply List.map_congr_left
  intro m _
  exact m.after_append spent more

theorem commitments_after (g : StoredGroup) (spent : List Point32) :
    (g.after spent).members.map GroupMember.commitment =
      g.members.map GroupMember.commitment := by
  rw [after, List.map_map]
  apply List.map_congr_left
  intro m _
  exact m.commitment_after spent

theorem id_after (g : StoredGroup) (spent : List Point32) : (g.after spent).id = g.id := by
  have hid : ∀ g : StoredGroup, g.id = hashDomain (Bytes.ascii "midwimble.output-group.id.v1")
      (g.rangeProof :: (g.members.map GroupMember.commitment).map Bytes32.toBytes) := by
    intro g
    rw [StoredGroup.id, List.map_map]
    rfl
  rw [hid, hid, commitments_after]
  rfl

theorem getElem?_after_eq_unspent {g : StoredGroup} {i : Nat} :
    (g.after spent).members[i]? = some (.unspent o) ↔
      g.members[i]? = some (.unspent o) ∧ o.commitment ∉ spent := by
  rw [after, List.getElem?_map, Option.map_eq_some_iff]
  constructor
  · rintro ⟨m, hm, he⟩
    obtain ⟨rfl, hn⟩ := GroupMember.after_eq_unspent.mp he
    exact ⟨hm, hn⟩
  · rintro ⟨hm, hn⟩
    exact ⟨_, hm, GroupMember.after_eq_unspent.mpr ⟨rfl, hn⟩⟩

theorem after_eq_self {g : StoredGroup}
    (h : ∀ (i : Nat) o, g.members[i]? = some (.unspent o) → o.commitment ∉ spent) :
    g.after spent = g := by
  have hmap : g.members.map (GroupMember.after spent) = g.members := by
    conv_rhs => rw [← List.map_id g.members]
    apply List.map_congr_left
    intro m hm
    cases m with
    | unspent o =>
      obtain ⟨i, hi⟩ := List.getElem?_of_mem hm
      exact GroupMember.after_eq_unspent.mpr ⟨rfl, h i o hi⟩
    | spent c m => rfl
  rw [after, hmap]

theorem spend_eq_ok {g : StoredGroup} {i : Nat} (hi : g.members[i]? = some (.unspent o))
    (honly : ∀ (j : Nat) o', g.members[j]? = some (.unspent o') → o'.commitment = o.commitment →
      j = i) : g.spend i = .ok (g.after [o.commitment]) := by
  rw [spend, hi]
  have hmap : g.members.set i (.spent o.commitment o.metadataHash) =
      g.members.map (GroupMember.after [o.commitment]) := by
    apply List.ext_getElem?
    intro j
    rw [List.getElem?_map]
    by_cases hj : i = j
    · subst hj
      rw [List.getElem?_set_self (List.getElem?_eq_some_iff.mp hi).1, hi]
      simp [GroupMember.after]
    · rw [List.getElem?_set_ne hj]
      cases hm : g.members[j]? with
      | none => rfl
      | some m =>
        cases m with
        | unspent o' =>
          have hne : o'.commitment ∉ [o.commitment] := by
            rw [List.mem_singleton]
            intro he
            exact hj (honly j o' hm he).symm
          rw [Option.map_some, GroupMember.after_eq_unspent.mpr ⟨rfl, hne⟩]
        | spent c m => rfl
  rw [after, ← hmap]

omit [Primitives] in
theorem isFullySpent_eq_false {g : StoredGroup} :
    g.isFullySpent = false ↔ ∃ (i : Nat) (o : Output), g.members[i]? = some (.unspent o) := by
  rw [isFullySpent, List.all_eq_false]
  constructor
  · rintro ⟨m, hm, hs⟩
    obtain ⟨i, hi⟩ := List.getElem?_of_mem hm
    cases m with
    | unspent o => exact ⟨i, o, hi⟩
    | spent c m => exact absurd rfl hs
  · rintro ⟨i, o, hi⟩
    exact ⟨_, List.mem_of_getElem? hi, Bool.false_ne_true⟩

end StoredGroup

end Midwimble
