import Mathlib.Data.Finset.Card
import Midwimble.Explorer.Records

namespace Midwimble
open OrderedMap Database
set_option autoImplicit true

/-- A row tells what a record does, its signer through the tracker's ids. -/
structure Burn.Row.Shows (row : Burn.Row) (ids : List Bytes32) (r : BlockRecord) : Prop where
  timestamp : row.timestamp = r.timestamp
  minted : row.minted = r.minted.getD Burn.unknown
  unsigned : r.signer = none → row.signer = Burn.unsigned
  signed : ∀ id, r.signer = some id → row.signer ≠ Burn.unsigned ∧ ids[row.signer]? = some id

theorem Burn.Row.Shows.mono {row : Burn.Row} (h : row.Shows ids r) (hids : ids <+: ids') :
    row.Shows ids' r where
  timestamp := h.timestamp
  minted := h.minted
  unsigned := h.unsigned
  signed id hid := by
    obtain ⟨hne, hat⟩ := h.signed id hid
    refine ⟨hne, ?_⟩
    obtain ⟨more, rfl⟩ := hids
    rwa [List.getElem?_append_left (List.getElem?_eq_some_iff.mp hat).1]

theorem suffix_dropLast {l m : List α} (h : l <:+ m) : l.dropLast <:+ m.dropLast := by
  obtain ⟨front, rfl⟩ := h
  cases l using List.reverseRecOn with
  | nil => exact List.nil_suffix
  | append_singleton l x =>
    rw [← List.append_assoc, List.dropLast_concat, List.dropLast_concat]
    exact List.suffix_append _ _

theorem suffix_getLast? {l m : List α} (h : l <:+ m) (hx : l.getLast? = some x) :
    m.getLast? = some x := by
  obtain ⟨front, rfl⟩ := h
  rw [List.getLast?_append, hx]
  rfl

namespace BurnIndex

variable {b : BurnIndex} {signers : Finset Bytes32} {recs : List BlockRecord}

/-- The ids are distinct signers, and the map finds each one's place. -/
structure Indexed (b : BurnIndex) (signers : Finset Bytes32) : Prop where
  nodup : b.ids.Nodup
  mem : ∀ id ∈ b.ids, id ∈ signers
  index : ∀ (id : Bytes32) (i : Nat), b.index[id]? = some i ↔ b.ids[i]? = some id

theorem indexed_default : default.Indexed signers where
  nodup := List.nodup_nil
  mem := fun _ h => absurd h List.not_mem_nil
  index id i := by simp [default]

theorem Indexed.length_le (h : b.Indexed signers) : b.ids.length ≤ signers.card := by
  rw [← List.toFinset_card_of_nodup h.nodup]
  apply Finset.card_le_card
  intro id hid
  exact h.mem id (List.mem_toFinset.mp hid)

/-- What looking up a record's signer leaves, for fewer signers than a row's field tells apart. -/
structure Named (b : BurnIndex) (o : Option Bytes32) (i : Nat) (b' : BurnIndex) : Prop where
  ids : b.ids <+: b'.ids
  same : b' = { b with ids := b'.ids, index := b'.index }
  unsigned : o = none → i = Burn.unsigned
  signed : ∀ id, o = some id → i ≠ Burn.unsigned ∧ b'.ids[i]? = some id

theorem Indexed.signer (h : b.Indexed signers) (hroom : signers.card < 2 ^ 32)
    {o : Option Bytes32} (hid : ∀ id, o = some id → id ∈ signers) :
    (b.signer o).2.Indexed signers ∧ b.Named o (b.signer o).1 (b.signer o).2 := by
  cases o with
  | none => exact ⟨h, List.prefix_rfl, rfl, fun _ => rfl, fun _ hs => nomatch hs⟩
  | some id =>
    cases hi : b.index[id]? with
    | some i =>
      have hfound : b.signer (some id) = (i, b) := by simp only [BurnIndex.signer, hi]
      rw [hfound]
      refine ⟨h, List.prefix_rfl, rfl, fun hs => (nomatch hs), ?_⟩
      intro id' hs
      obtain rfl := Option.some.inj hs
      have hat := (h.index id i).mp hi
      have hlt := (List.getElem?_eq_some_iff.mp hat).1
      have hle := h.length_le
      refine ⟨?_, hat⟩
      unfold Burn.unsigned
      omega
    | none =>
      have hnew : id ∉ b.ids := by
        intro hmem
        obtain ⟨i, hat⟩ := List.mem_iff_getElem?.mp hmem
        rw [(h.index id i).mpr hat] at hi
        cases hi
      have hnodup : (b.ids ++ [id]).Nodup := by
        rw [List.nodup_append]
        refine ⟨h.nodup, List.nodup_singleton id, ?_⟩
        intro x hx y hy
        rw [List.mem_singleton.mp hy]
        rintro rfl
        exact hnew hx
      have hmem : ∀ x ∈ b.ids ++ [id], x ∈ signers := by
        intro x hx
        rcases List.mem_append.mp hx with hx | hx
        · exact h.mem x hx
        · rw [List.mem_singleton.mp hx]
          exact hid id rfl
      have hlen : b.ids.length + 1 ≤ signers.card := by
        have hcard := Finset.card_le_card (s := (b.ids ++ [id]).toFinset) (t := signers)
          fun x hx => hmem x (List.mem_toFinset.mp hx)
        rwa [List.toFinset_card_of_nodup hnodup, List.length_append,
          List.length_singleton] at hcard
      have hadded : b.signer (some id) = (b.ids.length, { b with
          ids := b.ids ++ [id], index := b.index.insert id b.ids.length }) := by
        have hi' : b.ids.length % 2 ^ 32 = b.ids.length := Nat.mod_eq_of_lt (by omega)
        simp only [BurnIndex.signer, hi, hi']
      rw [hadded]
      refine ⟨⟨hnodup, hmem, ?_⟩, List.prefix_append _ _, rfl, fun hs => (nomatch hs), ?_⟩
      · intro x i
        rw [getElem?_insert_eq_some, h.index]
        constructor
        · rintro (⟨rfl, rfl⟩ | ⟨-, hx⟩)
          · exact List.getElem?_concat_length
          · rwa [List.getElem?_append_left (List.getElem?_eq_some_iff.mp hx).1]
        · intro hx
          rcases Nat.lt_or_ge i b.ids.length with hlt | hge
          · rw [List.getElem?_append_left hlt] at hx
            refine .inr ⟨?_, hx⟩
            rintro rfl
            exact hnew (List.mem_of_getElem? hx)
          · have hlast := (List.getElem?_eq_some_iff.mp hx).1
            rw [List.length_append, List.length_singleton] at hlast
            obtain rfl : i = b.ids.length := by omega
            rw [List.getElem?_concat_length] at hx
            exact .inl ⟨Option.some.inj hx, rfl⟩
      · intro id' hs
        obtain rfl := Option.some.inj hs
        refine ⟨?_, List.getElem?_concat_length⟩
        unfold Burn.unsigned
        omega

/-- The rows and the hashes are those of these records. -/
structure Holds (b : BurnIndex) (recs : List BlockRecord) (signers : Finset Bytes32) : Prop where
  rows : List.Forall₂ (fun r row => Burn.Row.Shows row b.ids r) recs b.rows
  hashes : b.hashes <:+ recs.map BlockRecord.hash
  indexed : b.Indexed signers

theorem Holds.length (h : b.Holds recs signers) : b.rows.length = recs.length :=
  h.rows.length_eq.symm

theorem holds_default : default.Holds [] signers :=
  ⟨.nil, List.nil_suffix, indexed_default⟩

theorem Holds.push (h : b.Holds recs signers) (hroom : signers.card < 2 ^ 32)
    (hid : ∀ id, r.signer = some id → id ∈ signers) :
    (b.push r).Holds (recs ++ [r]) signers ∧ (b.push r).hashes ≠ [] ∧
      (b.push r).start = b.start := by
  obtain ⟨hindexed, hnamed⟩ := h.indexed.signer hroom hid
  unfold BurnIndex.push
  generalize b.signer r.signer = named at hindexed hnamed
  obtain ⟨i, b'⟩ := named
  simp only at hindexed hnamed
  have hsame := hnamed.same
  have hrows : b'.rows = b.rows := by rw [hsame]
  have hhashes : b'.hashes = b.hashes := by rw [hsame]
  have hstart : b'.start = b.start := by rw [hsame]
  have hsuffix : b.hashes ++ [r.hash] <:+ (recs ++ [r]).map BlockRecord.hash := by
    rw [List.map_append, List.map_singleton]
    obtain ⟨front, hfront⟩ := h.hashes
    exact ⟨front, by rw [← List.append_assoc, hfront]⟩
  refine ⟨⟨?_, ?_, ⟨hindexed.nodup, hindexed.mem, hindexed.index⟩⟩, ?_, hstart⟩
  · simp only [hrows]
    apply List.rel_append
    · exact h.rows.imp fun _ _ hs => hs.mono hnamed.ids
    · exact .cons ⟨rfl, rfl, hnamed.unsigned, hnamed.signed⟩ .nil
  · simp only [hhashes]
    split
    · exact (List.tail_suffix _).trans hsuffix
    · exact hsuffix
  · simp only [hhashes]
    split
    · rename_i hlong
      intro hnil
      have hlen := congrArg List.length hnil
      rw [List.length_tail, List.length_nil] at hlen
      unfold Burn.reorgHashes at hlong
      omega
    · simp

theorem Holds.pushes {rs : List BlockRecord} (h : b.Holds recs signers)
    (hroom : signers.card < 2 ^ 32)
    (hid : ∀ r ∈ rs, ∀ id, r.signer = some id → id ∈ signers) :
    (rs.foldl BurnIndex.push b).Holds (recs ++ rs) signers ∧
      (rs ≠ [] → (rs.foldl BurnIndex.push b).hashes ≠ []) ∧
        (rs.foldl BurnIndex.push b).start = b.start := by
  induction rs generalizing b recs with
  | nil => exact ⟨by rwa [List.append_nil], fun hne => absurd rfl hne, rfl⟩
  | cons r rs ih =>
    obtain ⟨hr, hrs⟩ := List.forall_mem_cons.mp hid
    obtain ⟨hpush, hknown, hstart⟩ := h.push hroom hr
    obtain ⟨hall, hlater, hsame⟩ := ih hpush hrs
    rw [List.append_assoc, List.singleton_append] at hall
    refine ⟨hall, fun _ => ?_, hsame.trans hstart⟩
    cases rs with
    | nil => exact hknown
    | cons q rs => exact hlater (List.cons_ne_nil q rs)

theorem Holds.pop (h : b.Holds recs signers) : b.pop.Holds recs.dropLast signers where
  rows := by
    have hcut := List.forall₂_take (recs.length - 1) h.rows
    rw [← List.dropLast_eq_take, ← h.length, ← List.dropLast_eq_take] at hcut
    exact hcut
  hashes := by
    rw [List.map_dropLast]
    exact suffix_dropLast h.hashes
  indexed := ⟨h.indexed.nodup, h.indexed.mem, h.indexed.index⟩

end BurnIndex

end Midwimble
