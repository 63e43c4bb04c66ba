import Midwimble.Core.BondScript

namespace Midwimble
open Fallible
set_option autoImplicit true

theorem fromLeBytes_le : fromLeBytes (Bytes.le width n) = n % 256 ^ width := Bytes.foldr_le

theorem fromLeBytes_append_zeros {tail : Bytes} (h : ∀ b ∈ tail, b = 0) :
    fromLeBytes (bs ++ tail) = fromLeBytes bs := by
  have hzero : fromLeBytes tail = 0 := by
    induction tail with
    | nil => rfl
    | cons b tail ih =>
      have hb : b = 0 := h b List.mem_cons_self
      have htail := ih fun c hc => h c (List.mem_cons_of_mem _ hc)
      rw [fromLeBytes] at htail ⊢
      rw [List.foldr_cons, htail, hb]
      rfl
  rw [fromLeBytes] at hzero ⊢
  rw [List.foldr_append, hzero]
  rfl

theorem fromLeBytes_lt (bs : Bytes) : fromLeBytes bs < 256 ^ bs.length := by
  induction bs with
  | nil => exact Nat.one_pos
  | cons b bs ih =>
    have hb : b.toNat < 256 := b.toNat_lt
    rw [fromLeBytes] at ih ⊢
    rw [List.foldr_cons, List.length_cons, Nat.pow_succ]
    omega

theorem intBytes_ne_nil (v : Nat) : intBytes v ≠ [] := by
  unfold intBytes
  split <;> exact List.cons_ne_nil _ _

theorem length_intBytes (v : Nat) : (intBytes v).length ≤ 8 := by
  have hle := (List.rdropWhile_prefix (p := fun b : UInt8 => b = 0) (Bytes.le 8 v)).length_le
  rw [Bytes.length_le] at hle
  unfold intBytes
  split
  · exact Nat.le_add_left 1 7
  · rename_i he
    rw [he] at hle
    exact hle

theorem fromLeBytes_intBytes (h : v < 2 ^ 64) : fromLeBytes (intBytes v) = v := by
  have hall : fromLeBytes ((Bytes.le 8 v).rdropWhile (· = 0)) = v := by
    have hsplit :=
      List.rdropWhile_append_rtakeWhile (p := fun b : UInt8 => b = 0) (l := Bytes.le 8 v)
    have hzeros : ∀ b ∈ (Bytes.le 8 v).rtakeWhile (fun b => decide (b = 0)), b = 0 :=
      fun b hb => by simpa using List.mem_rtakeWhile_imp hb
    rw [← fromLeBytes_append_zeros hzeros, hsplit, fromLeBytes_le]
    exact Nat.mod_eq_of_lt h
  unfold intBytes
  split
  · rename_i he
    rw [he] at hall
    exact hall
  · rename_i he
    rw [he] at hall
    exact hall

namespace Reader

/-- A reader that has read `done` of a script and not `tail`. -/
def between (done tail : Bytes) : Reader := ⟨done ++ tail, done.length⟩

theorem get_between (done data tail : Bytes) :
    (between done (data ++ tail)).get data.length = some data := by
  have hin : done.length + data.length ≤ (done ++ (data ++ tail)).length := by
    rw [List.length_append, List.length_append]
    omega
  rw [get, between, if_pos hin, List.drop_left, List.take_left]

theorem advance_between (done data tail : Bytes) :
    Reader.mk (done ++ (data ++ tail)) (done.length + data.length) =
      between (done ++ data) tail := by
  rw [between, List.append_assoc, List.length_append]

theorem op_between (done : Bytes) (want : UInt8) (tail : Bytes) :
    (between done (want :: tail)).op want = .ok (between (done ++ [want]) tail) := by
  have hget : (between done (want :: tail)).bytes[(between done (want :: tail)).pos]? =
      some want := by
    rw [between, List.getElem?_append_right (Nat.le_refl _), Nat.sub_self]
    rfl
  rw [op, bailIf_neg (not_not.mpr hget), bind_ok]
  exact congrArg Except.ok (advance_between done [want] tail)

theorem push_between (done tail : Bytes) (h : data.length < 2 ^ 16) :
    (between done (pushData data ++ tail)).push =
      .ok (data, between (done ++ pushData data) tail) := by
  have hlen : fromLeBytes (Bytes.le 2 data.length) = data.length := by
    rw [fromLeBytes_le]
    exact Nat.mod_eq_of_lt h
  have hpush : pushData data ++ tail =
      opPushData :: (Bytes.le 2 data.length ++ (data ++ tail)) := by
    rw [pushData, List.cons_append, List.cons_append, List.append_assoc]
    rfl
  have hdone : done ++ [opPushData] ++ Bytes.le 2 data.length ++ data = done ++ pushData data := by
    rw [pushData, List.append_assoc, List.append_assoc]
    rfl
  have hcount := get_between (done ++ [opPushData]) (Bytes.le 2 data.length) (data ++ tail)
  have hnext := advance_between (done ++ [opPushData]) (Bytes.le 2 data.length) (data ++ tail)
  rw [Bytes.length_le] at hcount hnext
  rw [push, hpush, op_between, bind_ok, hcount, orBail_some, bind_ok]
  have hdata := get_between (done ++ [opPushData] ++ Bytes.le 2 data.length) data tail
  dsimp only [between] at hnext hdata ⊢
  rw [hnext, hlen, hdata, orBail_some, bind_ok]
  have hlast := advance_between (done ++ [opPushData] ++ Bytes.le 2 data.length) data tail
  rw [hdone, List.length_append, Bytes.length_le, List.append_assoc] at hlast
  exact congrArg (fun r => Except.ok (data, r)) hlast

theorem push32_between (done tail : Bytes) (key : Bytes32) :
    (between done (pushData key.toBytes ++ tail)).push32 =
      .ok (key, between (done ++ pushData key.toBytes) tail) := by
  have hlen : key.toBytes.length = 32 := by simp [Bytes32.toBytes]
  have hword := wordOf_toBytes key []
  rw [List.append_nil] at hword
  rw [push32, push_between done tail (by omega), bind_ok]
  dsimp only
  rw [bailIf_neg (not_not.mpr hlen), bind_ok, hword]

end Reader

namespace BondScript

theorem intoEight_eq_some (h : data.length ≤ 8) :
    ∃ le, intoEight data = some le ∧ fromLeBytes le = fromLeBytes data := by
  refine ⟨_, if_pos h, ?_⟩
  exact fromLeBytes_append_zeros fun b hb => List.eq_of_mem_replicate hb

theorem parseLock_length (h : parseLock bytecode = .ok (key, until_, r)) : until_.length ≤ 8 := by
  rw [parseLock] at h
  obtain ⟨⟨key', r'⟩, -, h⟩ := bind_eq_ok.mp h
  obtain ⟨r'', -, h⟩ := bind_eq_ok.mp h
  obtain ⟨⟨data, r''⟩, -, h⟩ := bind_eq_ok.mp h
  obtain ⟨hlen, h⟩ := check_bind_eq_ok.mp h
  rw [bailIf_eq_ok] at hlen
  cases h
  omega

theorem parseLock_toBytecode (s : BondScript) :
    parseLock s.toBytecode = .ok (s.miningKey, intBytes s.bondedUntil,
      Reader.between (pushData s.miningKey.toBytes ++ [opDrop] ++
          pushData (intBytes s.bondedUntil))
        (opCheckTimeVerify :: (pushData s.ownerPk.toBytes ++
          opCheckSigVerify :: pushData (intBytes 1)))) := by
  have hcode : s.toBytecode = pushData s.miningKey.toBytes ++
      opDrop :: (pushData (intBytes s.bondedUntil) ++
        opCheckTimeVerify :: (pushData s.ownerPk.toBytes ++
          opCheckSigVerify :: pushData (intBytes 1))) := by
    simp [toBytecode, opDrop, opCheckTimeVerify, opCheckSigVerify]
  have hlen := length_intBytes s.bondedUntil
  have hnil := intBytes_ne_nil s.bondedUntil
  have hstart : Reader.mk s.toBytecode 0 = Reader.between [] s.toBytecode := rfl
  rw [parseLock, hstart, hcode, Reader.push32_between, bind_ok]
  dsimp only
  rw [Reader.op_between, bind_ok, Reader.push_between _ _ (by omega), bind_ok]
  dsimp only
  rw [bailIf_neg, bind_ok, List.nil_append]
  rw [List.isEmpty_iff]
  exact not_or.mpr ⟨hnil, by omega⟩

theorem parseOwner_toBytecode (s : BondScript) (done : Bytes) :
    parseOwner s.toBytecode s.miningKey s.bondedUntil
      (Reader.between done (opCheckTimeVerify :: (pushData s.ownerPk.toBytes ++
        opCheckSigVerify :: pushData (intBytes 1)))) = .ok s := by
  rw [parseOwner, Reader.op_between, bind_ok, Reader.push32_between, bind_ok]
  dsimp only
  rw [Reader.op_between, bind_ok, bailIf_neg (not_not.mpr rfl), bind_ok]

theorem parse_toBytecode (s : BondScript) (h : s.bondedUntil < 2 ^ 64) :
    parse s.toBytecode = some (.ok s) := by
  obtain ⟨le, hle, hvalue⟩ := intoEight_eq_some (length_intBytes s.bondedUntil)
  rw [fromLeBytes_intBytes h] at hvalue
  rw [parse, parseLock_toBytecode]
  dsimp only
  rw [hle, Option.bind_eq_bind, Option.bind_some, hvalue, parseOwner_toBytecode]

theorem of_parse_eq_ok (h : parse bytecode = some (.ok s)) :
    s.bondedUntil < 2 ^ 64 ∧ bytecode = s.toBytecode := by
  rw [parse] at h
  cases hlock : parseLock bytecode with
  | error e =>
    rw [hlock] at h
    cases h
  | ok parts =>
    obtain ⟨key, until_, r⟩ := parts
    have hlen := parseLock_length hlock
    obtain ⟨le, hle, hvalue⟩ := intoEight_eq_some hlen
    rw [hlock] at h
    dsimp only at h
    rw [hle, Option.bind_eq_bind, Option.bind_some, Option.some.injEq, parseOwner] at h
    obtain ⟨r', -, h⟩ := bind_eq_ok.mp h
    obtain ⟨⟨owner, r''⟩, -, h⟩ := bind_eq_ok.mp h
    obtain ⟨r3, -, h⟩ := bind_eq_ok.mp h
    obtain ⟨hcode, h⟩ := check_bind_eq_ok.mp h
    rw [bailIf_eq_ok, not_not] at hcode
    cases h
    constructor
    · have hlt := fromLeBytes_lt until_
      have hpow : 256 ^ until_.length ≤ 256 ^ 8 := Nat.pow_le_pow_right (by decide) hlen
      rw [hvalue]
      exact Nat.lt_of_lt_of_le hlt hpow
    · exact hcode.symm

theorem parse_ne_none (bytecode : Bytes) : parse bytecode ≠ none := by
  rw [parse]
  cases hlock : parseLock bytecode with
  | error e => exact Option.some_ne_none _
  | ok parts =>
    obtain ⟨key, until_, r⟩ := parts
    obtain ⟨le, hle, -⟩ := intoEight_eq_some (parseLock_length hlock)
    dsimp only
    rw [hle, Option.bind_eq_bind, Option.bind_some]
    exact Option.some_ne_none _

/-- `parse` recognises exactly the template: it never panics, and its one preimage of a script
is the script's encoding. -/
theorem parse_exactly_template :
    (∀ bytecode, parse bytecode ≠ none) ∧
    (∀ (bytecode : Bytes) (s : BondScript), parse bytecode = some (.ok s) ↔
      s.bondedUntil < 2 ^ 64 ∧ bytecode = s.toBytecode) ∧
    ∀ (bytecode bytecode' : Bytes) (s : BondScript), parse bytecode = some (.ok s) →
      parse bytecode' = some (.ok s) → bytecode = bytecode' := by
  refine ⟨parse_ne_none, fun bytecode s => ⟨of_parse_eq_ok, ?_⟩, ?_⟩
  · rintro ⟨h, rfl⟩
    exact parse_toBytecode s h
  · intro bytecode bytecode' s h h'
    rw [(of_parse_eq_ok h).2, (of_parse_eq_ok h').2]

end BondScript

end Midwimble
