import Mathlib.Data.Set.Function
import Midwimble.Core.Types

namespace Midwimble
set_option autoImplicit true

theorem toBytes_inj {a b : Bytes32} (h : a.toBytes = b.toBytes) : a = b := by
  apply BitVec.eq_of_toNat_eq
  have hle : Bytes.le 32 a.toNat = Bytes.le 32 b.toNat := List.reverse_injective h
  refine Bytes.le_inj ?_ ?_ hle
  · exact a.isLt
  · exact b.isLt

@[simp] theorem length_toBytes (a : Bytes32) : a.toBytes.length = 32 := by
  simp [Bytes32.toBytes]

theorem domainPreimage_inj {d d' : Bytes} {ps ps' : List Bytes}
    (hd : ∀ p ∈ d :: ps, p.length < 2 ^ 64) (hd' : ∀ p ∈ d' :: ps', p.length < 2 ^ 64)
    (h : domainPreimage d ps = domainPreimage d' ps') : d = d' ∧ ps = ps' :=
  List.cons_eq_cons.mp (Bytes.prefixedAll_inj hd hd' h)

theorem toBytes_append_inj {a b : Bytes32} (h : a.toBytes ++ r = b.toBytes ++ s) :
    a = b ∧ r = s := by
  obtain ⟨ha, hr⟩ := List.append_inj h (by simp)
  exact ⟨toBytes_inj ha, hr⟩

theorem le_append_inj (hm : m < 256 ^ width) (hn : n < 256 ^ width)
    (h : Bytes.le width m ++ r = Bytes.le width n ++ s) : m = n ∧ r = s := by
  obtain ⟨ha, hr⟩ := List.append_inj h (by simp)
  exact ⟨Bytes.le_inj hm hn ha, hr⟩

theorem injOn_of_lists {f : α → β} {xs ys : List α}
    (h : ∀ p ∈ xs ++ ys, ∀ q ∈ xs ++ ys, f p = f q → p = q) :
    Set.InjOn f {p | p ∈ xs ∨ p ∈ ys} :=
  fun p hp q hq => h p (List.mem_append.mpr hp) q (List.mem_append.mpr hq)

/-- An encoding that tells where it ends, on the values that fit it. -/
def SelfDelimiting (encode : α → Bytes) (fits : α → Prop) : Prop :=
  ∀ ⦃a b r s⦄, fits a → fits b → encode a ++ r = encode b ++ s → a = b ∧ r = s

theorem SelfDelimiting.inj (h : SelfDelimiting encode fits) (ha : fits a) (hb : fits b)
    (he : encode a = encode b) : a = b :=
  (h ha hb (congrArg (· ++ []) he)).1

theorem selfDelimiting_byte : SelfDelimiting (fun b : UInt8 => [b]) fun _ => True := by
  intro a b r s _ _ h
  exact ⟨(List.cons.inj h).1, (List.cons.inj h).2⟩

/-- A list whose length is a 64-bit integer and whose elements fit. -/
def ListFits (fits : α → Prop) (xs : List α) : Prop := xs.length < 2 ^ 64 ∧ ∀ x ∈ xs, fits x

theorem SelfDelimiting.encodeList {α : Type} {encode : α → Bytes} {fits : α → Prop}
    (h : SelfDelimiting encode fits) :
    SelfDelimiting (Midwimble.encodeList encode) (ListFits fits) := by
  have hflat : ∀ (xs ys : List α) (r s : Bytes), xs.length = ys.length →
      (∀ x ∈ xs, fits x) → (∀ y ∈ ys, fits y) →
        xs.flatMap encode ++ r = ys.flatMap encode ++ s → xs = ys ∧ r = s := by
    intro xs
    induction xs with
    | nil =>
      intro ys r s hlen _ _ he
      obtain rfl := List.length_eq_zero_iff.mp hlen.symm
      exact ⟨rfl, he⟩
    | cons x xs ih =>
      intro ys r s hlen hx hy he
      obtain ⟨y, ys, rfl⟩ := List.exists_cons_of_length_eq_add_one hlen.symm
      rw [List.flatMap_cons, List.flatMap_cons, List.append_assoc, List.append_assoc] at he
      obtain ⟨rfl, hrest⟩ := h (hx _ List.mem_cons_self) (hy _ List.mem_cons_self) he
      obtain ⟨rfl, hend⟩ := ih ys r s (Nat.succ_injective hlen)
        (fun z hz => hx z (List.mem_cons_of_mem _ hz))
        (fun z hz => hy z (List.mem_cons_of_mem _ hz)) hrest
      exact ⟨rfl, hend⟩
  intro xs ys r s hx hy he
  rw [Midwimble.encodeList, Midwimble.encodeList, List.append_assoc, List.append_assoc] at he
  obtain ⟨hlen, he⟩ := le_append_inj (by norm_num; exact hx.1) (by norm_num; exact hy.1) he
  exact hflat xs ys r s hlen hx.2 hy.2 he

theorem selfDelimiting_bytes :
    SelfDelimiting (encodeList fun b : UInt8 => [b]) fun bs => bs.length < 2 ^ 64 := by
  intro a b r s ha hb he
  exact selfDelimiting_byte.encodeList ⟨ha, fun _ _ => trivial⟩ ⟨hb, fun _ _ => trivial⟩ he

theorem encodeOption_append_inj {a b : Option Bytes32}
    (h : encodeOption a ++ r = encodeOption b ++ s) : a = b ∧ r = s := by
  cases a with
  | none =>
    cases b with
    | none => exact ⟨rfl, (List.cons.inj h).2⟩
    | some y => exact absurd (List.cons.inj h).1 (by decide)
  | some x =>
    cases b with
    | none => exact absurd (List.cons.inj h).1 (by decide)
    | some y =>
      obtain ⟨rfl, hr⟩ := toBytes_append_inj (List.cons.inj h).2
      exact ⟨rfl, hr⟩

structure Output.Fits (o : Output) : Prop where
  payload : o.payload.length < 2 ^ 64

structure OutputGroup.Fits (g : OutputGroup) : Prop where
  outputs : ListFits Output.Fits g.outputs
  rangeProof : g.rangeProof.length < 2 ^ 64

structure Kernel.Fits (k : Kernel) : Prop where
  fee : k.fee < 2 ^ 64
  minHeight : k.minHeight < 2 ^ 64

structure Transaction.FieldsFit (t : Transaction) : Prop where
  inputs : t.body.inputs.length < 2 ^ 64
  outputs : ListFits OutputGroup.Fits t.body.outputs
  kernels : ListFits Kernel.Fits t.body.kernels
  encode : t.encode.length < 2 ^ 64

structure Coinbase.Fits (c : Coinbase) : Prop where
  outputs : c.outputs.Fits
  kernel : c.kernel.Fits
  encode : c.encode.length < 2 ^ 64

structure BondRegistration.Fits (r : BondRegistration) : Prop where
  bondedUntil : r.proof.coin.script.bondedUntil < 2 ^ 64
  value : r.proof.coin.value < 2 ^ 64
  midstateHeight : r.proof.midstateHeight < 2 ^ 64
  leafIndex : r.proof.smt.leafIndex < 2 ^ 64
  leafCount : r.proof.smt.leafCount < 2 ^ 64
  siblings : r.proof.smt.siblings.length < 2 ^ 64

structure HeaderLink.Fits (l : HeaderLink) : Prop where
  timestamp : l.timestamp < 2 ^ 64
  nonce : l.nonce < 2 ^ 64

structure RelayHeaders.Fits (r : RelayHeaders) : Prop where
  headers : ListFits HeaderLink.Fits r.headers
  encode : r.encode.length < 2 ^ 64

theorem selfDelimiting_output : SelfDelimiting Output.encode Output.Fits := by
  intro a b r s ha hb he
  simp only [Output.encode, List.append_assoc] at he
  obtain ⟨hc, he⟩ := toBytes_append_inj he
  obtain ⟨ho, he⟩ := toBytes_append_inj he
  obtain ⟨hk, he⟩ := toBytes_append_inj he
  obtain ⟨hv, he⟩ := selfDelimiting_byte trivial trivial he
  obtain ⟨hp, he⟩ := selfDelimiting_bytes ha.payload hb.payload he
  obtain ⟨hr, he⟩ := toBytes_append_inj he
  exact ⟨by cases a; cases b; simp_all, he⟩

theorem selfDelimiting_group : SelfDelimiting OutputGroup.encode OutputGroup.Fits := by
  intro a b r s ha hb he
  simp only [OutputGroup.encode, List.append_assoc] at he
  obtain ⟨ho, he⟩ := selfDelimiting_output.encodeList ha.outputs hb.outputs he
  obtain ⟨hp, he⟩ := selfDelimiting_bytes ha.rangeProof hb.rangeProof he
  exact ⟨by cases a; cases b; simp_all, he⟩

theorem selfDelimiting_input : SelfDelimiting Input.encode fun _ => True := by
  intro a b r s _ _ he
  simp only [Input.encode, SchnorrSig.encode, List.append_assoc] at he
  obtain ⟨hc, he⟩ := toBytes_append_inj he
  obtain ⟨ho, he⟩ := toBytes_append_inj he
  obtain ⟨hx, he⟩ := toBytes_append_inj he
  obtain ⟨hy, he⟩ := toBytes_append_inj he
  refine ⟨?_, he⟩
  obtain ⟨_, _, ⟨_, _⟩⟩ := a
  obtain ⟨_, _, ⟨_, _⟩⟩ := b
  simp_all

theorem features_tag_inj {f g : KernelFeatures} (h : f.tag.toNat = g.tag.toNat) : f = g := by
  cases f <;> cases g <;> first | rfl | exact absurd h (by decide)

theorem selfDelimiting_kernel : SelfDelimiting Kernel.encode Kernel.Fits := by
  intro a b r s ha hb he
  simp only [Kernel.encode, List.append_assoc] at he
  have htag : ∀ f : KernelFeatures, f.tag.toNat < 256 ^ 4 := by
    intro f
    cases f <;> decide
  obtain ⟨ht, he⟩ := le_append_inj (htag _) (htag _) he
  obtain ⟨hf, he⟩ := le_append_inj (by norm_num; exact ha.fee) (by norm_num; exact hb.fee) he
  obtain ⟨hm, he⟩ := le_append_inj (by norm_num; exact ha.minHeight)
    (by norm_num; exact hb.minHeight) he
  obtain ⟨hx, he⟩ := toBytes_append_inj he
  obtain ⟨ho, he⟩ := toBytes_append_inj he
  obtain ⟨hc, he⟩ := toBytes_append_inj he
  obtain ⟨h1, he⟩ := toBytes_append_inj he
  obtain ⟨h2, he⟩ := toBytes_append_inj he
  have ht := features_tag_inj ht
  refine ⟨?_, he⟩
  obtain ⟨_, _, _, _, _, ⟨_, _, _⟩⟩ := a
  obtain ⟨_, _, _, _, _, ⟨_, _, _⟩⟩ := b
  simp_all

theorem Transaction.encode_inj {a b : Transaction} (ha : a.FieldsFit) (hb : b.FieldsFit)
    (he : a.encode = b.encode) : a = b := by
  have he := congrArg (· ++ ([] : Bytes)) he
  simp only [Transaction.encode, List.append_assoc] at he
  obtain ⟨hi, he⟩ := selfDelimiting_input.encodeList ⟨ha.inputs, fun _ _ => trivial⟩
    ⟨hb.inputs, fun _ _ => trivial⟩ he
  obtain ⟨ho, he⟩ := selfDelimiting_group.encodeList ha.outputs hb.outputs he
  obtain ⟨hk, he⟩ := selfDelimiting_kernel.encodeList ha.kernels hb.kernels he
  obtain ⟨hx, he⟩ := toBytes_append_inj he
  obtain ⟨hy, -⟩ := toBytes_append_inj he
  obtain ⟨⟨_, _, _⟩, _, _⟩ := a
  obtain ⟨⟨_, _, _⟩, _, _⟩ := b
  simp_all

theorem Coinbase.encode_inj {a b : Coinbase} (ha : a.Fits) (hb : b.Fits)
    (he : a.encode = b.encode) : a = b := by
  have he := congrArg (· ++ ([] : Bytes)) he
  simp only [Coinbase.encode, List.append_assoc] at he
  obtain ⟨ho, he⟩ := selfDelimiting_group ha.outputs hb.outputs he
  obtain ⟨hk, he⟩ := selfDelimiting_kernel ha.kernel hb.kernel he
  obtain ⟨hx, -⟩ := toBytes_append_inj he
  cases a
  cases b
  simp_all

theorem selfDelimiting_sibling :
    SelfDelimiting (fun s : ProofElement => s.hash.toBytes ++ [if s.isRight then 1 else 0])
      fun _ => True := by
  intro a b r s _ _ he
  simp only [List.append_assoc] at he
  obtain ⟨hh, he⟩ := toBytes_append_inj he
  obtain ⟨hr, he⟩ := selfDelimiting_byte trivial trivial he
  refine ⟨?_, he⟩
  obtain ⟨_, x⟩ := a
  obtain ⟨_, y⟩ := b
  cases x <;> cases y <;> simp_all

theorem selfDelimiting_registration :
    SelfDelimiting BondRegistration.encode BondRegistration.Fits := by
  intro a b r s ha hb he
  simp only [BondRegistration.encode, List.append_assoc] at he
  obtain ⟨h1, he⟩ := toBytes_append_inj he
  obtain ⟨h2, he⟩ := le_append_inj (by norm_num; exact ha.bondedUntil)
    (by norm_num; exact hb.bondedUntil) he
  obtain ⟨h3, he⟩ := toBytes_append_inj he
  obtain ⟨h4, he⟩ := le_append_inj (by norm_num; exact ha.value) (by norm_num; exact hb.value) he
  obtain ⟨h5, he⟩ := toBytes_append_inj he
  obtain ⟨h6, he⟩ := le_append_inj (by norm_num; exact ha.midstateHeight)
    (by norm_num; exact hb.midstateHeight) he
  obtain ⟨h7, he⟩ := toBytes_append_inj he
  obtain ⟨h8, he⟩ := toBytes_append_inj he
  obtain ⟨h9, he⟩ := toBytes_append_inj he
  obtain ⟨h10, he⟩ := encodeOption_append_inj he
  obtain ⟨h11, he⟩ := le_append_inj (by norm_num; exact ha.leafIndex)
    (by norm_num; exact hb.leafIndex) he
  obtain ⟨h12, he⟩ := le_append_inj (by norm_num; exact ha.leafCount)
    (by norm_num; exact hb.leafCount) he
  obtain ⟨h13, he⟩ := selfDelimiting_sibling.encodeList ⟨ha.siblings, fun _ _ => trivial⟩
    ⟨hb.siblings, fun _ _ => trivial⟩ he
  refine ⟨?_, he⟩
  obtain ⟨⟨⟨⟨_, _, _⟩, _, _⟩, _, ⟨_, _, _, _⟩, ⟨_, _, _⟩⟩⟩ := a
  obtain ⟨⟨⟨⟨_, _, _⟩, _, _⟩, _, ⟨_, _, _, _⟩, ⟨_, _, _⟩⟩⟩ := b
  simp_all

theorem selfDelimiting_link : SelfDelimiting HeaderLink.encode HeaderLink.Fits := by
  intro a b r s ha hb he
  simp only [HeaderLink.encode, List.append_assoc] at he
  obtain ⟨h1, he⟩ := toBytes_append_inj he
  obtain ⟨h2, he⟩ := toBytes_append_inj he
  obtain ⟨h3, he⟩ := le_append_inj (by norm_num; exact ha.timestamp)
    (by norm_num; exact hb.timestamp) he
  obtain ⟨h4, he⟩ := toBytes_append_inj he
  obtain ⟨h5, he⟩ := le_append_inj (by norm_num; exact ha.nonce) (by norm_num; exact hb.nonce) he
  obtain ⟨h6, he⟩ := toBytes_append_inj he
  exact ⟨by cases a; cases b; simp_all, he⟩

theorem RelayHeaders.encode_inj {a b : RelayHeaders} (ha : a.Fits) (hb : b.Fits)
    (he : a.encode = b.encode) : a = b := by
  have he := congrArg (· ++ ([] : Bytes)) he
  simp only [RelayHeaders.encode, List.append_assoc] at he
  obtain ⟨hp, he⟩ := toBytes_append_inj he
  have hlist : encodeList HeaderLink.encode a.headers ++ [] =
      encodeList HeaderLink.encode b.headers ++ [] := by
    simpa only [encodeList, List.append_assoc] using he
  obtain ⟨hh, -⟩ := selfDelimiting_link.encodeList ha.headers hb.headers hlist
  cases a
  cases b
  simp_all

end Midwimble
