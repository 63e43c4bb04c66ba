import Midwimble.Core.Pool
import Midwimble.Identity.Block
import Midwimble.Lib.HashChain

namespace Midwimble
set_option autoImplicit true

def commitPreimage (payingRoot nextRoot : Bytes32) : Bytes :=
  domainPreimage (Bytes.ascii "midwimble.pool.commit.v2") [payingRoot.toBytes, nextRoot.toBytes]

def bindPreimage (commitment owner : Bytes32) : Bytes :=
  domainPreimage (Bytes.ascii "midwimble.pool.bind.v2") [commitment.toBytes, owner.toBytes]

theorem bindPreimage_inj (h : bindPreimage c o = bindPreimage c' o') : c = c' ∧ o = o' := by
  have hshort : ∀ x y : Bytes32, ∀ p ∈ [Bytes.ascii "midwimble.pool.bind.v2", x.toBytes,
      y.toBytes], p.length < 2 ^ 64 := by
    intro x y
    simp only [List.mem_cons, List.not_mem_nil, or_false]
    rintro p (rfl | rfl | rfl)
    · decide
    all_goals simp
  obtain ⟨-, hparts⟩ := domainPreimage_inj (hshort c o) (hshort c' o') h
  simp only [List.cons.injEq, and_true] at hparts
  exact ⟨toBytes_inj hparts.1, toBytes_inj hparts.2⟩

theorem headerPreimage_congr {h k : BatchHeader} (hprev : h.prevHeaderHash = k.prevHeaderHash)
    (hpost : h.postTxMidstate = k.postTxMidstate) (hroot : h.stateRoot = k.stateRoot)
    (htime : h.timestamp = k.timestamp) (htarget : h.target = k.target)
    (hsigner : h.signer = k.signer) (hweight : h.chainWeight = k.chainWeight) :
    headerPreimage h = headerPreimage k := by
  rw [headerPreimage, headerPreimage, hprev, hpost, hroot, htime, htarget, hsigner, hweight]

variable [Primitives]

/-- One word folded into the running midstate. -/
def foldWord (midstate word : Bytes32) : Bytes32 := hashConcat midstate.toBytes word.toBytes

namespace JobProof

/-- The words folded onto the midstate after the block's body, for an owner's copy. -/
def words (p : JobProof) (owner : Bytes32) (auth : Option Bytes32) : List Bytes32 :=
  (p.copyFor owner).hash :: p.stateRoot ::
    (p.registrations.toList ++ (p.relay.toList ++ auth.toList))

/-- The header an owner's copy is mined under. -/
def header (p : JobProof) (owner : Bytes32) (auth : Option Bytes32) : BatchHeader where
  height := 0
  prevMidstate := 0
  postTxMidstate := HashChain.fold foldWord p.bodyMidstate (p.words owner auth)
  extension := ⟨0, 0⟩
  timestamp := p.timestamp
  target := p.target
  stateRoot := p.stateRoot
  prevHeaderHash := p.prevHeaderHash
  signer := auth.bind fun _ => p.signer
  chainWeight := p.chainWeight
  auxPow := none

theorem miningHash_eq (p : JobProof) (owner : Bytes32) (auth : Option Bytes32) :
    p.miningHash owner auth = blake3 (headerPreimage (p.header owner auth)) := by
  unfold miningHash header words
  cases p.registrations <;> cases p.relay <;> cases auth <;> rfl

/-- Everything hashed for the mining hash of an owner's copy. -/
def hashed (p : JobProof) (owner : Bytes32) (auth : Option Bytes32) : List Bytes :=
  [commitPreimage p.payingRoot p.nextRoot,
    bindPreimage (jobCommitment p.payingRoot p.nextRoot) owner,
    coinbasePreimage (p.copyFor owner), headerPreimage (p.header owner auth)] ++
    (HashChain.links foldWord p.bodyMidstate (p.words owner auth)).map fun link =>
      link.1.toBytes ++ link.2.toBytes

/-- A proof whose fields fit their types, as does its coinbase for an owner. -/
structure FitsFor (p : JobProof) (owner : Bytes32) : Prop where
  timestamp : p.timestamp < 2 ^ 64
  chainWeight : p.chainWeight < 2 ^ 128
  coinbase : (p.copyFor owner).Fits

/-- The headers of two copies agree outside their midstates. -/
structure HeadersAgree (p : JobProof) (a : Option Bytes32) (q : JobProof) (b : Option Bytes32) :
    Prop where
  prevHeaderHash : p.prevHeaderHash = q.prevHeaderHash
  stateRoot : p.stateRoot = q.stateRoot
  timestamp : p.timestamp = q.timestamp
  target : p.target = q.target
  signer : (a.bind fun _ => p.signer) = b.bind fun _ => q.signer
  chainWeight : p.chainWeight = q.chainWeight

/-- The words of one copy are the last of the other's, folded onto the same midstate. -/
def SlidesInto (p : JobProof) (o : Bytes32) (a : Option Bytes32) (q : JobProof) (o' : Bytes32)
    (b : Option Bytes32) : Prop :=
  ∃ front ≠ [], q.words o' b = front ++ p.words o a ∧
    p.bodyMidstate = HashChain.fold foldWord q.bodyMidstate front

variable {p q : JobProof} {o o' : Bytes32} {a b : Option Bytes32}

theorem foldWord_inj (hinj : Set.InjOn blake3 {x | x ∈ p.hashed o a ∨ x ∈ q.hashed o' b}) :
    Set.InjOn (fun link : Bytes32 × Bytes32 => foldWord link.1 link.2)
      {link | link ∈ HashChain.links foldWord p.bodyMidstate (p.words o a) ∨
        link ∈ HashChain.links foldWord q.bodyMidstate (q.words o' b)} := by
  intro x hx y hy h
  have hmem : ∀ {link : Bytes32 × Bytes32},
      link ∈ HashChain.links foldWord p.bodyMidstate (p.words o a) ∨
        link ∈ HashChain.links foldWord q.bodyMidstate (q.words o' b) →
      link.1.toBytes ++ link.2.toBytes ∈ {x | x ∈ p.hashed o a ∨ x ∈ q.hashed o' b} := by
    rintro link (hl | hl)
    · exact .inl (List.mem_append_right _ (List.mem_map_of_mem hl))
    · exact .inr (List.mem_append_right _ (List.mem_map_of_mem hl))
  obtain ⟨hm, hw⟩ := toBytes_append_inj (hinj (hmem hx) (hmem hy) h)
  exact Prod.ext hm (toBytes_inj hw)

theorem owner_eq (hp : p.FitsFor o) (hq : q.FitsFor o')
    (hinj : Set.InjOn blake3 {x | x ∈ p.hashed o a ∨ x ∈ q.hashed o' b})
    (h : (p.copyFor o).hash = (q.copyFor o').hash) : o = o' := by
  have hcoinbase : coinbasePreimage (p.copyFor o) = coinbasePreimage (q.copyFor o') :=
    hinj (.inl (by simp [hashed])) (.inr (by simp [hashed])) h
  obtain ⟨-, hencode⟩ := onePart_inj (by decide) (by decide) hp.coinbase.encode
    hq.coinbase.encode hcoinbase
  have hcopy := Coinbase.encode_inj hp.coinbase hq.coinbase hencode
  have hextra : blake3 (bindPreimage (jobCommitment p.payingRoot p.nextRoot) o) =
      blake3 (bindPreimage (jobCommitment q.payingRoot q.nextRoot) o') :=
    congrArg Coinbase.extra hcopy
  have hbind := hinj (.inl (by simp [hashed])) (.inr (by simp [hashed])) hextra
  exact (bindPreimage_inj hbind).2

theorem miningHash_eq_iff (hp : p.FitsFor o) (hq : q.FitsFor o')
    (hinj : Set.InjOn blake3 {x | x ∈ p.hashed o a ∨ x ∈ q.hashed o' b}) :
    p.miningHash o a = q.miningHash o' b ↔ p.HeadersAgree a q b ∧
      HashChain.fold foldWord p.bodyMidstate (p.words o a) =
        HashChain.fold foldWord q.bodyMidstate (q.words o' b) := by
  rw [miningHash_eq, miningHash_eq]
  constructor
  · intro h
    have hheader := hinj (.inl (by simp [hashed])) (.inr (by simp [hashed])) h
    obtain ⟨h1, h2, h3, h4, h5, h6, h7⟩ := headerPreimage_inj hp.timestamp hq.timestamp
      hp.chainWeight hq.chainWeight hheader
    exact ⟨⟨h1, h3, h4, h5, h6, h7⟩, h2⟩
  · rintro ⟨h, hfold⟩
    rw [headerPreimage_congr (h := p.header o a) (k := q.header o' b) h.prevHeaderHash hfold
      h.stateRoot h.timestamp h.target h.signer h.chainWeight]

end JobProof

/-- A share's work is one owner's unless one copy's words slide into the other's. -/
theorem job_work_of_one_owner {p q : JobProof} {o o' : Bytes32} {a b : Option Bytes32}
    (hp : p.FitsFor o) (hq : q.FitsFor o')
    (hinj : Set.InjOn blake3 {x | x ∈ p.hashed o a ∨ x ∈ q.hashed o' b}) :
    (p.miningHash o a = q.miningHash o' b → o = o') ↔
      (p.HeadersAgree a q b → p.SlidesInto o a q o' b ∨ q.SlidesInto o' b p o a → o = o') := by
  rw [JobProof.miningHash_eq_iff hp hq hinj]
  constructor
  · intro h hagree hslides
    apply h
    refine ⟨hagree, ?_⟩
    rcases hslides with ⟨front, -, hwords, hmid⟩ | ⟨front, -, hwords, hmid⟩
    · rw [hwords, HashChain.fold_append, hmid]
    · rw [hwords, HashChain.fold_append, hmid]
  · rintro h ⟨hagree, hfold⟩
    rcases HashChain.fold_binds (JobProof.foldWord_inj hinj) hfold with
      ⟨front, hwords, hmid⟩ | ⟨front, hwords, hmid⟩
    · cases front with
      | nil => exact JobProof.owner_eq hp hq hinj (List.cons.inj hwords).1.symm
      | cons w front =>
        exact h hagree (.inl ⟨w :: front, List.cons_ne_nil w front, hwords, hmid⟩)
    · cases front with
      | nil => exact JobProof.owner_eq hp hq hinj (List.cons.inj hwords).1
      | cons w front =>
        exact h hagree (.inr ⟨w :: front, List.cons_ne_nil w front, hwords, hmid⟩)

omit [Primitives] in
/-- A coinbase without outputs. -/
def slidCoinbase : Coinbase := ⟨⟨[], []⟩, ⟨.coinbase, 0, 0, 0, 0, ⟨0, 0, 0⟩⟩, 0⟩

/-- The hash of the first owner's copy of it. -/
def slidWord : Bytes32 :=
  { slidCoinbase with extra := bindExtra (jobCommitment 0 0) 1 : Coinbase }.hash

/-- A job whose state root and registrations are that word. -/
def slidLong : JobProof where
  prevHeaderHash := 0
  timestamp := 0
  target := 0
  stateRoot := slidWord
  bodyMidstate := 0
  coinbase := slidCoinbase
  registrations := some slidWord
  relay := none
  signer := none
  chainWeight := 0
  payingRoot := 0
  nextRoot := 0

/-- The job that starts where the second owner's copy of it has folded the coinbase. -/
def slidShort : JobProof :=
  { slidLong with
    bodyMidstate := foldWord 0 (slidLong.copyFor 2).hash
    registrations := none }

theorem slid_fits {p : JobProof} (ht : p.timestamp = 0) (hw : p.chainWeight = 0)
    (hc : p.coinbase = slidCoinbase) (o : Bytes32) : p.FitsFor o where
  timestamp := by rw [ht]; decide
  chainWeight := by rw [hw]; decide
  coinbase := by
    rw [JobProof.copyFor, hc]
    refine ⟨⟨⟨Nat.two_pow_pos 64, fun _ h => nomatch h⟩, Nat.two_pow_pos 64⟩,
      ⟨Nat.two_pow_pos 64, Nat.two_pow_pos 64⟩, ?_⟩
    simp [slidCoinbase, Coinbase.encode, OutputGroup.encode, Kernel.encode, encodeList]

theorem slid_miningHash : slidShort.miningHash 1 none = slidLong.miningHash 2 none := rfl

omit [Primitives] in
theorem job_work_of_one_owner_aligned :
    letI := Primitives.mixing
    slidLong.miningHash 1 none ≠ slidLong.miningHash 2 none := by
  let := Primitives.mixing
  intro h
  apply absurd ((job_work_of_one_owner (slid_fits rfl rfl rfl 1) (slid_fits rfl rfl rfl 2)
    (injOn_of_lists (by decide +kernel))).mpr ?_ h) (by decide)
  rintro - (⟨front, hne, hwords, -⟩ | ⟨front, hne, hwords, -⟩)
  all_goals
    have hlen := congrArg List.length hwords
    rw [List.length_append] at hlen
    exact absurd (List.length_eq_zero_iff.mp (by simpa [JobProof.words] using hlen)) hne

omit [Primitives] in
/-- Two owners' copies of two jobs with one mining hash, under a hash that does not collide on
anything hashed for them. -/
theorem job_work_of_two_owners :
    letI := Primitives.mixing
    slidShort.FitsFor 1 ∧ slidLong.FitsFor 2 ∧
      Set.InjOn blake3 {x | x ∈ slidShort.hashed 1 none ∨ x ∈ slidLong.hashed 2 none} ∧
      slidShort.miningHash 1 none = slidLong.miningHash 2 none ∧ (1 : Bytes32) ≠ 2 := by
  let := Primitives.mixing
  exact ⟨slid_fits rfl rfl rfl 1, slid_fits rfl rfl rfl 2, injOn_of_lists (by decide +kernel),
    slid_miningHash, by decide⟩

end Midwimble
