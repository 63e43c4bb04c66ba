import Midwimble.Core.State
import Midwimble.Identity.MergedMining

namespace Midwimble
open Fallible
set_option autoImplicit true

def txPreimage (t : Transaction) : Bytes :=
  domainPreimage (Bytes.ascii "midwimble.tx.v1") [t.encode]

def coinbasePreimage (c : Coinbase) : Bytes :=
  domainPreimage (Bytes.ascii "midwimble.coinbase.v1") [c.encode]

def registrationsPreimage (rs : List BondRegistration) : Bytes :=
  domainPreimage (Bytes.ascii "midwimble.registrations.v1")
    [encodeList BondRegistration.encode rs]

def relayPreimage (r : RelayHeaders) : Bytes :=
  domainPreimage (Bytes.ascii "midwimble.relay-headers.v1") [r.encode]

def authPreimage (a : MinerAuth) : Bytes :=
  domainPreimage (Bytes.ascii "midwimble.miner-auth.v1")
    [a.bondId.toBytes, a.signature.e.toBytes, a.signature.s.toBytes]

def headerPreimage (h : BatchHeader) : Bytes :=
  h.prevHeaderHash.toBytes ++ h.postTxMidstate.toBytes ++ h.stateRoot.toBytes ++
    Bytes.le 8 h.timestamp ++ h.target.toBytes ++ encodeOption h.signer ++
    Bytes.le 16 h.chainWeight

def auxIdPreimage (parentFinalHash auxMiningHash : Bytes32) : Bytes :=
  domainPreimage (Bytes.ascii "midwimble.aux-block-id.v1")
    [parentFinalHash.toBytes, auxMiningHash.toBytes]

/-- A block whose fields fit their types. -/
structure Batch.Fits (b : Batch) : Prop where
  body : b.body.FieldsFit
  coinbase : ∀ c, b.coinbase = some c → c.Fits
  registrations : ListFits BondRegistration.Fits b.registrations
  registrations_encode : (encodeList BondRegistration.encode b.registrations).length < 2 ^ 64
  relay : ∀ r, b.relay = some r → r.Fits
  timestamp : b.timestamp < 2 ^ 64
  chainWeight : b.chainWeight < 2 ^ 128
  auxPow : ∀ a, b.auxPow = some a → a.Fits

theorem headerPreimage_inj {h k : BatchHeader} (hh : h.timestamp < 2 ^ 64)
    (hk : k.timestamp < 2 ^ 64) (wh : h.chainWeight < 2 ^ 128) (wk : k.chainWeight < 2 ^ 128)
    (he : headerPreimage h = headerPreimage k) :
    h.prevHeaderHash = k.prevHeaderHash ∧ h.postTxMidstate = k.postTxMidstate ∧
      h.stateRoot = k.stateRoot ∧ h.timestamp = k.timestamp ∧ h.target = k.target ∧
      h.signer = k.signer ∧ h.chainWeight = k.chainWeight := by
  simp only [headerPreimage, List.append_assoc] at he
  obtain ⟨h1, he⟩ := toBytes_append_inj he
  obtain ⟨h2, he⟩ := toBytes_append_inj he
  obtain ⟨h3, he⟩ := toBytes_append_inj he
  obtain ⟨h4, he⟩ := le_append_inj (by norm_num; exact hh) (by norm_num; exact hk) he
  obtain ⟨h5, he⟩ := toBytes_append_inj he
  obtain ⟨h6, he⟩ := encodeOption_append_inj he
  have h7 := Bytes.le_inj (by norm_num; exact wh) (by norm_num; exact wk) he
  exact ⟨h1, h2, h3, h4, h5, h6, h7⟩

theorem onePart_inj {d d' : String} (hd : (Bytes.ascii d).length < 2 ^ 64)
    (hd' : (Bytes.ascii d').length < 2 ^ 64) (hp : p.length < 2 ^ 64) (hp' : p'.length < 2 ^ 64)
    (h : domainPreimage (Bytes.ascii d) [p] = domainPreimage (Bytes.ascii d') [p']) :
    Bytes.ascii d = Bytes.ascii d' ∧ p = p' := by
  obtain ⟨hdom, hparts⟩ := domainPreimage_inj
    (List.forall_mem_cons.mpr ⟨hd, List.forall_mem_singleton.mpr hp⟩)
    (List.forall_mem_cons.mpr ⟨hd', List.forall_mem_singleton.mpr hp'⟩) h
  exact ⟨hdom, (List.cons.inj hparts).1⟩

theorem authPreimage_inj {a b : MinerAuth} (h : authPreimage a = authPreimage b) : a = b := by
  have hshort : ∀ x : MinerAuth, ∀ p ∈ [Bytes.ascii "midwimble.miner-auth.v1", x.bondId.toBytes,
      x.signature.e.toBytes, x.signature.s.toBytes], p.length < 2 ^ 64 := by
    intro x
    simp only [List.mem_cons, List.not_mem_nil, or_false]
    rintro p (rfl | rfl | rfl | rfl)
    · decide
    all_goals simp
  obtain ⟨-, hparts⟩ := domainPreimage_inj (hshort a) (hshort b) h
  simp only [List.cons.injEq, and_true] at hparts
  obtain ⟨h1, h2, h3⟩ := hparts
  have h1 := toBytes_inj h1
  have h2 := toBytes_inj h2
  have h3 := toBytes_inj h3
  obtain ⟨_, ⟨_, _⟩⟩ := a
  obtain ⟨_, ⟨_, _⟩⟩ := b
  simp_all

theorem auxIdPreimage_inj (h : auxIdPreimage p x = auxIdPreimage q y) : p = q ∧ x = y := by
  have hshort : ∀ u v : Bytes32, ∀ s ∈ [Bytes.ascii "midwimble.aux-block-id.v1", u.toBytes,
      v.toBytes], s.length < 2 ^ 64 := by
    intro u v
    simp only [List.mem_cons, List.not_mem_nil, or_false]
    rintro s (rfl | rfl | rfl)
    · decide
    all_goals simp
  obtain ⟨-, hparts⟩ := domainPreimage_inj (hshort p x) (hshort q y) h
  simp only [List.cons.injEq, and_true] at hparts
  exact ⟨toBytes_inj hparts.1, toBytes_inj hparts.2⟩

variable [Primitives]

/-- The fold over a block's body. -/
def foldBody (prevMidstate : Bytes32) (b : Batch) : Bytes32 :=
  hashConcat prevMidstate.toBytes b.body.hash.toBytes

/-- The fold over a block's body and coinbase. -/
def foldPaid (prevMidstate : Bytes32) (b : Batch) : Bytes32 :=
  match b.coinbase with
  | some cb => hashConcat (foldBody prevMidstate b).toBytes cb.hash.toBytes
  | none => foldBody prevMidstate b

/-- The fold up to the state root. -/
def foldRoot (prevMidstate : Bytes32) (b : Batch) : Bytes32 :=
  hashConcat (foldPaid prevMidstate b).toBytes b.stateRoot.toBytes

/-- The fold up to the registrations. -/
def foldRegistered (prevMidstate : Bytes32) (b : Batch) : Bytes32 :=
  if b.registrations.isEmpty then foldRoot prevMidstate b
  else hashConcat (foldRoot prevMidstate b).toBytes (registrationsHash b.registrations).toBytes

theorem foldRegistered_some (h : b.registrations.isEmpty = false) :
    foldRegistered prev b = hashConcat (foldRoot prev b).toBytes
      (registrationsHash b.registrations).toBytes := by
  rw [foldRegistered, h]
  rfl

theorem foldRegistered_none (h : b.registrations.isEmpty = true) :
    foldRegistered prev b = foldRoot prev b := by
  rw [foldRegistered, h]
  rfl

theorem foldUnsigned_eq (prevMidstate : Bytes32) (b : Batch) :
    foldUnsigned prevMidstate b = match b.relay with
      | some relay => hashConcat (foldRegistered prevMidstate b).toBytes relay.hash.toBytes
      | none => foldRegistered prevMidstate b := rfl

/-- Everything hashed to fold a block's contents. -/
inductive Batch.Folds (b : Batch) (prev : Bytes32) : Bytes → Prop where
  | tx : Folds b prev (txPreimage b.body)
  | body : Folds b prev (prev.toBytes ++ b.body.hash.toBytes)
  | coinbase (c : Coinbase) : b.coinbase = some c → Folds b prev (coinbasePreimage c)
  | paid (c : Coinbase) : b.coinbase = some c →
      Folds b prev ((foldBody prev b).toBytes ++ c.hash.toBytes)
  | root : Folds b prev ((foldPaid prev b).toBytes ++ b.stateRoot.toBytes)
  | registrations : b.registrations.isEmpty = false →
      Folds b prev (registrationsPreimage b.registrations)
  | registered : b.registrations.isEmpty = false →
      Folds b prev ((foldRoot prev b).toBytes ++ (registrationsHash b.registrations).toBytes)
  | relay (r : RelayHeaders) : b.relay = some r → Folds b prev (relayPreimage r)
  | relayed (r : RelayHeaders) : b.relay = some r →
      Folds b prev ((foldRegistered prev b).toBytes ++ r.hash.toBytes)

/-- Whether a word is the hash of a body or a coinbase. -/
def PaidHash (b : Batch) (v : Bytes32) : Prop :=
  v = b.body.hash ∨ ∃ c, b.coinbase = some c ∧ v = c.hash

theorem foldPaid_ends (prev : Bytes32) (b : Batch) :
    ∃ u v, foldPaid prev b = hashConcat u v.toBytes ∧ b.Folds prev (u ++ v.toBytes) ∧
      u.length = 32 ∧ PaidHash b v := by
  cases hc : b.coinbase with
  | none =>
    exact ⟨_, _, by rw [foldPaid, hc]; rfl, .body, length_toBytes _, .inl rfl⟩
  | some c =>
    exact ⟨_, _, by rw [foldPaid, hc], .paid c hc, length_toBytes _, .inr ⟨c, hc, rfl⟩⟩

section Injective

variable {a b : Batch} {pa pb : Bytes32} {S : Set Bytes}

theorem hashConcat_inj (hinj : Set.InjOn blake3 S) (hx : u ++ v ∈ S) (hy : u' ++ v' ∈ S)
    (hl : u.length = u'.length) (h : hashConcat u v = hashConcat u' v') : u = u' ∧ v = v' :=
  List.append_inj (hinj hx hy h) hl

theorem domains_apart (hinj : Set.InjOn blake3 S) {d d' : String}
    (hx : domainPreimage (Bytes.ascii d) [p] ∈ S) (hy : domainPreimage (Bytes.ascii d') [p'] ∈ S)
    (hp : p.length < 2 ^ 64) (hp' : p'.length < 2 ^ 64)
    (hd : (Bytes.ascii d).length < 2 ^ 64 ∧ (Bytes.ascii d').length < 2 ^ 64 ∧
      Bytes.ascii d ≠ Bytes.ascii d') :
    hashDomain (Bytes.ascii d) [p] ≠ hashDomain (Bytes.ascii d') [p'] :=
  fun h => hd.2.2 (onePart_inj hd.1 hd.2.1 hp hp' (hinj hx hy h)).1

theorem relay_hash_not_paid (hinj : Set.InjOn blake3 S) (hA : ∀ x, a.Folds pa x → x ∈ S)
    (hB : ∀ x, b.Folds pb x → x ∈ S) (ha : a.Fits) (hb : b.Fits) (hr : a.relay = some r) :
    ¬ PaidHash b r.hash := by
  rintro (h | ⟨c, hc, h⟩)
  · exact domains_apart hinj (hA _ (.relay r hr)) (hB _ .tx) (ha.relay r hr).encode
      hb.body.encode (by decide) h
  · exact domains_apart hinj (hA _ (.relay r hr)) (hB _ (.coinbase c hc)) (ha.relay r hr).encode
      (hb.coinbase c hc).encode (by decide) h

theorem registrations_hash_not_paid (hinj : Set.InjOn blake3 S)
    (hA : ∀ x, a.Folds pa x → x ∈ S) (hB : ∀ x, b.Folds pb x → x ∈ S) (ha : a.Fits)
    (hb : b.Fits) (hr : a.registrations.isEmpty = false) :
    ¬ PaidHash b (registrationsHash a.registrations) := by
  rintro (h | ⟨c, hc, h⟩)
  · exact domains_apart hinj (hA _ (.registrations hr)) (hB _ .tx) ha.registrations_encode
      hb.body.encode (by decide) h
  · exact domains_apart hinj (hA _ (.registrations hr)) (hB _ (.coinbase c hc))
      ha.registrations_encode (hb.coinbase c hc).encode (by decide) h

theorem foldRoot_ne_foldPaid (hinj : Set.InjOn blake3 S) (hA : ∀ x, a.Folds pa x → x ∈ S)
    (hB : ∀ x, b.Folds pb x → x ∈ S) (h : foldRoot pa a = foldPaid pb b) :
    PaidHash b a.stateRoot := by
  obtain ⟨u, v, hv, hf, hl, hpaid⟩ := foldPaid_ends pb b
  rw [hv] at h
  obtain ⟨-, hroot⟩ := hashConcat_inj hinj (hA _ .root) (hB _ hf) (by simp [hl]) h
  rwa [toBytes_inj hroot]

theorem relay_unmixed (hinj : Set.InjOn blake3 S) (hA : ∀ x, a.Folds pa x → x ∈ S)
    (hB : ∀ x, b.Folds pb x → x ∈ S) (ha : a.Fits) (hb : b.Fits)
    (hroot : a.stateRoot = b.stateRoot) (hra : a.relay = some r) (hrb : b.relay = none)
    (h : foldUnsigned pa a = foldUnsigned pb b) : False := by
  rw [foldUnsigned_eq, foldUnsigned_eq, hra, hrb] at h
  cases hgb : b.registrations.isEmpty with
  | false =>
    rw [foldRegistered_some hgb] at h
    obtain ⟨-, hr⟩ := hashConcat_inj hinj (hA _ (.relayed r hra)) (hB _ (.registered hgb))
      (by simp) h
    exact domains_apart hinj (hA _ (.relay r hra)) (hB _ (.registrations hgb))
      (ha.relay r hra).encode hb.registrations_encode (by decide) (toBytes_inj hr)
  | true =>
    rw [foldRegistered_none hgb] at h
    obtain ⟨hm, hr⟩ := hashConcat_inj hinj (hA _ (.relayed r hra)) (hB _ .root) (by simp) h
    have hr := toBytes_inj hr
    have hm := toBytes_inj hm
    cases hga : a.registrations.isEmpty with
    | false =>
      rw [foldRegistered_some hga] at hm
      obtain ⟨u, v, hv, hf, hl, hpaid⟩ := foldPaid_ends pb b
      rw [hv] at hm
      obtain ⟨-, hg⟩ := hashConcat_inj hinj (hA _ (.registered hga)) (hB _ hf) (by simp [hl]) hm
      rw [← toBytes_inj hg] at hpaid
      exact registrations_hash_not_paid hinj hA hB ha hb hga hpaid
    | true =>
      rw [foldRegistered_none hga] at hm
      have hpaid := foldRoot_ne_foldPaid hinj hA hB hm
      rw [hroot, ← hr] at hpaid
      exact relay_hash_not_paid hinj hA hB ha hb hra hpaid

theorem registrations_unmixed (hinj : Set.InjOn blake3 S) (hA : ∀ x, a.Folds pa x → x ∈ S)
    (hB : ∀ x, b.Folds pb x → x ∈ S) (ha : a.Fits) (hb : b.Fits)
    (hroot : a.stateRoot = b.stateRoot) (hga : a.registrations.isEmpty = false)
    (hgb : b.registrations.isEmpty = true) (h : foldRegistered pa a = foldRegistered pb b) :
    False := by
  rw [foldRegistered_some hga, foldRegistered_none hgb] at h
  obtain ⟨hm, hg⟩ := hashConcat_inj hinj (hA _ (.registered hga)) (hB _ .root) (by simp) h
  have hpaid := foldRoot_ne_foldPaid hinj hA hB (toBytes_inj hm)
  rw [hroot, ← toBytes_inj hg] at hpaid
  exact registrations_hash_not_paid hinj hA hB ha hb hga hpaid

theorem coinbase_unmixed (hinj : Set.InjOn blake3 S) (hA : ∀ x, a.Folds pa x → x ∈ S)
    (hB : ∀ x, b.Folds pb x → x ∈ S) (ha : a.Fits) (hb : b.Fits) (hca : a.coinbase = some c)
    (hcb : b.coinbase = none) (h : foldPaid pa a = foldPaid pb b) : False := by
  rw [foldPaid, foldPaid, hca, hcb] at h
  simp only [foldBody] at h
  obtain ⟨-, hc⟩ := hashConcat_inj hinj (hA _ (.paid c hca)) (hB _ .body) (by simp) h
  exact domains_apart hinj (hA _ (.coinbase c hca)) (hB _ .tx) (ha.coinbase c hca).encode
    hb.body.encode (by decide) (toBytes_inj hc)

theorem foldBody_inj (hinj : Set.InjOn blake3 S) (hA : ∀ x, a.Folds pa x → x ∈ S)
    (hB : ∀ x, b.Folds pb x → x ∈ S) (ha : a.Fits) (hb : b.Fits)
    (h : foldBody pa a = foldBody pb b) : pa = pb ∧ a.body = b.body := by
  obtain ⟨hp, ht⟩ := hashConcat_inj hinj (hA _ .body) (hB _ .body) (by simp) h
  have ht : txPreimage a.body = txPreimage b.body :=
    hinj (hA _ .tx) (hB _ .tx) (toBytes_inj ht)
  exact ⟨toBytes_inj hp, Transaction.encode_inj ha.body hb.body
    (onePart_inj (by decide) (by decide) ha.body.encode hb.body.encode ht).2⟩

theorem foldPaid_inj (hinj : Set.InjOn blake3 S) (hA : ∀ x, a.Folds pa x → x ∈ S)
    (hB : ∀ x, b.Folds pb x → x ∈ S) (ha : a.Fits) (hb : b.Fits)
    (h : foldPaid pa a = foldPaid pb b) :
    pa = pb ∧ a.body = b.body ∧ a.coinbase = b.coinbase := by
  cases hca : a.coinbase with
  | none =>
    cases hcb : b.coinbase with
    | none =>
      rw [foldPaid, foldPaid, hca, hcb] at h
      obtain ⟨hp, hbody⟩ := foldBody_inj hinj hA hB ha hb h
      exact ⟨hp, hbody, rfl⟩
    | some c => exact (coinbase_unmixed hinj hB hA hb ha hcb hca h.symm).elim
  | some c =>
    cases hcb : b.coinbase with
    | none => exact (coinbase_unmixed hinj hA hB ha hb hca hcb h).elim
    | some d =>
      rw [foldPaid, foldPaid, hca, hcb] at h
      obtain ⟨hm, hc⟩ := hashConcat_inj hinj (hA _ (.paid c hca)) (hB _ (.paid d hcb))
        (by simp) h
      obtain ⟨hp, hbody⟩ := foldBody_inj hinj hA hB ha hb (toBytes_inj hm)
      have hc : coinbasePreimage c = coinbasePreimage d :=
        hinj (hA _ (.coinbase c hca)) (hB _ (.coinbase d hcb)) (toBytes_inj hc)
      have hcd := Coinbase.encode_inj (ha.coinbase c hca) (hb.coinbase d hcb)
        (onePart_inj (by decide) (by decide) (ha.coinbase c hca).encode
          (hb.coinbase d hcb).encode hc).2
      exact ⟨hp, hbody, by rw [hcd]⟩

theorem foldRegistered_inj (hinj : Set.InjOn blake3 S) (hA : ∀ x, a.Folds pa x → x ∈ S)
    (hB : ∀ x, b.Folds pb x → x ∈ S) (ha : a.Fits) (hb : b.Fits)
    (hroot : a.stateRoot = b.stateRoot) (h : foldRegistered pa a = foldRegistered pb b) :
    pa = pb ∧ a.body = b.body ∧ a.coinbase = b.coinbase ∧
      a.registrations = b.registrations := by
  have hrest : foldRoot pa a = foldRoot pb b → a.registrations = b.registrations →
      pa = pb ∧ a.body = b.body ∧ a.coinbase = b.coinbase ∧
        a.registrations = b.registrations := by
    intro h hg
    obtain ⟨hm, -⟩ := hashConcat_inj hinj (hA _ .root) (hB _ .root) (by simp) h
    obtain ⟨hp, hbody, hcb⟩ := foldPaid_inj hinj hA hB ha hb (toBytes_inj hm)
    exact ⟨hp, hbody, hcb, hg⟩
  cases hga : a.registrations.isEmpty with
  | true =>
    cases hgb : b.registrations.isEmpty with
    | true =>
      rw [foldRegistered_none hga, foldRegistered_none hgb] at h
      exact hrest h (by rw [List.isEmpty_iff.mp hga, List.isEmpty_iff.mp hgb])
    | false => exact (registrations_unmixed hinj hB hA hb ha hroot.symm hgb hga h.symm).elim
  | false =>
    cases hgb : b.registrations.isEmpty with
    | true => exact (registrations_unmixed hinj hA hB ha hb hroot hga hgb h).elim
    | false =>
      rw [foldRegistered_some hga, foldRegistered_some hgb] at h
      obtain ⟨hm, hg⟩ := hashConcat_inj hinj (hA _ (.registered hga)) (hB _ (.registered hgb))
        (by simp) h
      have hg : registrationsPreimage a.registrations = registrationsPreimage b.registrations :=
        hinj (hA _ (.registrations hga)) (hB _ (.registrations hgb)) (toBytes_inj hg)
      exact hrest (toBytes_inj hm) (selfDelimiting_registration.encodeList.inj ha.registrations
        hb.registrations (onePart_inj (by decide) (by decide) ha.registrations_encode
          hb.registrations_encode hg).2)

/-- The fold over a block's contents fixes the contents, whichever parts each block has. -/
theorem foldUnsigned_inj (hinj : Set.InjOn blake3 S) (hA : ∀ x, a.Folds pa x → x ∈ S)
    (hB : ∀ x, b.Folds pb x → x ∈ S) (ha : a.Fits) (hb : b.Fits)
    (hroot : a.stateRoot = b.stateRoot) (h : foldUnsigned pa a = foldUnsigned pb b) :
    pa = pb ∧ a.body = b.body ∧ a.coinbase = b.coinbase ∧
      a.registrations = b.registrations ∧ a.relay = b.relay := by
  have hrest : foldRegistered pa a = foldRegistered pb b → a.relay = b.relay →
      pa = pb ∧ a.body = b.body ∧ a.coinbase = b.coinbase ∧
        a.registrations = b.registrations ∧ a.relay = b.relay := by
    intro h hr
    obtain ⟨hp, hbody, hcb, hg⟩ := foldRegistered_inj hinj hA hB ha hb hroot h
    exact ⟨hp, hbody, hcb, hg, hr⟩
  cases hra : a.relay with
  | none =>
    cases hrb : b.relay with
    | none =>
      rw [foldUnsigned_eq, foldUnsigned_eq, hra, hrb] at h
      rw [hra, hrb] at hrest
      exact hrest h rfl
    | some r => exact (relay_unmixed hinj hB hA hb ha hroot.symm hrb hra h.symm).elim
  | some r =>
    cases hrb : b.relay with
    | none => exact (relay_unmixed hinj hA hB ha hb hroot hra hrb h).elim
    | some q =>
      rw [foldUnsigned_eq, foldUnsigned_eq, hra, hrb] at h
      obtain ⟨hm, hr⟩ := hashConcat_inj hinj (hA _ (.relayed r hra)) (hB _ (.relayed q hrb))
        (by simp) h
      have hr : relayPreimage r = relayPreimage q :=
        hinj (hA _ (.relay r hra)) (hB _ (.relay q hrb)) (toBytes_inj hr)
      have hrq := RelayHeaders.encode_inj (ha.relay r hra) (hb.relay q hrb)
        (onePart_inj (by decide) (by decide) (ha.relay r hra).encode (hb.relay q hrb).encode
          hr).2
      rw [hra, hrb] at hrest
      exact hrest (toBytes_inj hm) (by rw [hrq])

end Injective

/-- The header a bonded miner signs over. -/
def unsignedHeader (prevMidstate : Bytes32) (b : Batch) : BatchHeader :=
  { b.header with
    prevMidstate := prevMidstate
    postTxMidstate := foldUnsigned prevMidstate b
    signer := none
    auxPow := none }

def authorizationPreimage (prevMidstate : Bytes32) (b : Batch) : Bytes :=
  domainPreimage (Bytes.ascii "midwimble.block-authorisation.v1")
    [(computeHeaderHash (unsignedHeader prevMidstate b)).toBytes, networkMagic]

/-- Everything hashed for what the miner signs. -/
inductive Batch.Authorizes (b : Batch) : Bytes → Prop where
  | contents : b.Folds b.prevMidstate x → Authorizes b x
  | header : Authorizes b (headerPreimage (unsignedHeader b.prevMidstate b))
  | message : Authorizes b (authorizationPreimage b.prevMidstate b)

/-- The hash the block's proof of work commits to. -/
def Batch.miningHash (b : Batch) : Bytes32 := computeHeaderHash b.header

/-- Everything hashed for the block's id but its proof of work. -/
inductive Batch.Identifies (b : Batch) : Bytes → Prop where
  | contents : b.Folds b.prevMidstate x → Identifies b x
  | auth (m : MinerAuth) : b.miner = some m → Identifies b (authPreimage m)
  | signed (m : MinerAuth) : b.miner = some m →
      Identifies b ((foldUnsigned b.prevMidstate b).toBytes ++ m.hash.toBytes)
  | header : Identifies b (headerPreimage b.header)
  | auxId (p : AuxPow) : b.auxPow = some p →
      Identifies b (auxIdPreimage p.finalHash b.miningHash)
  | aux (p : AuxPow) : b.auxPow = some p → x ∈ p.hashed b.miningHash → Identifies b x

/-- What the block's proof of work is over: its own mining hash, or its parent's. -/
def Batch.powInput (b : Batch) : Bytes32 × Nat :=
  match b.auxPow with
  | none => (b.miningHash, b.extension.nonce)
  | some p => (p.parentMiningHash b.miningHash, p.nonce)

def powValue (algo : PowAlgo) (input : Bytes32 × Nat) : Bytes32 :=
  (createExtensionWith algo input.1 input.2).finalHash

theorem verifyPow_id {b : Batch}
    (h : verifyPow height b.miningHash b.extension b.target b.auxPow = .ok ()) :
    (b.auxPow = none ∧ b.extension.finalHash = powValue (powAlgoAt height) b.powInput) ∨
      ∃ p, b.auxPow = some p ∧ p.coinbaseAfter = [] ∧
        p.finalHash = powValue (powAlgoAt height) b.powInput ∧
        b.extension = ⟨0, blake3 (auxIdPreimage p.finalHash b.miningHash)⟩ := by
  cases hp : b.auxPow with
  | none =>
    rw [hp] at h
    have hv := (verifyExtensionWith_eq_ok.mp h).2
    simp only [PowJob.holds, beq_iff_eq] at hv
    exact .inl ⟨rfl, by rw [Batch.powInput, hp]; exact hv.symm⟩
  | some p =>
    rw [hp] at h
    obtain ⟨hc, hv⟩ := verifyPowWith_aux_eq_ok.mp h
    simp only [PowJob.holds, AuxPow.powJob, beq_iff_eq] at hv
    refine .inr ⟨p, rfl, AuxPow.coinbaseAfter_of_claims hc, ?_, ?_⟩
    · rw [Batch.powInput, hp]
      exact hv.symm
    · simp only [AuxPow.checkClaims, bind_eq_ok, bailIf_eq_ok, not_or, not_not, ne_eq] at hc
      obtain ⟨_, -, _, ⟨hn, hid⟩, -⟩ := hc
      cases hx : b.extension
      simp_all [AuxPow.blockId, auxBlockId, auxIdPreimage, hashDomain]

omit [Primitives] in
theorem extension_ext {x y : Extension} (hn : x.nonce = y.nonce)
    (hf : x.finalHash = y.finalHash) : x = y := by
  cases x
  cases y
  simp_all

section Identity

variable {a b : Batch}

theorem foldBlock_inj (hinj : Set.InjOn blake3 {x | a.Identifies x ∨ b.Identifies x})
    (h : foldBlock a.prevMidstate a = foldBlock b.prevMidstate b)
    (hsigner : a.miner.map MinerAuth.bondId = b.miner.map MinerAuth.bondId) :
    a.miner = b.miner ∧ foldUnsigned a.prevMidstate a = foldUnsigned b.prevMidstate b := by
  rw [foldBlock, foldBlock] at h
  cases hma : a.miner with
  | none =>
    cases hmb : b.miner with
    | none =>
      rw [hma, hmb] at h
      exact ⟨rfl, h⟩
    | some n => simp [hma, hmb] at hsigner
  | some m =>
    cases hmb : b.miner with
    | none => simp [hma, hmb] at hsigner
    | some n =>
      rw [hma, hmb] at h
      obtain ⟨hu, hm⟩ := hashConcat_inj hinj (.inl (.signed m hma)) (.inr (.signed n hmb))
        (by simp) h
      have hm : authPreimage m = authPreimage n :=
        hinj (.inl (.auth m hma)) (.inr (.auth n hmb)) (toBytes_inj hm)
      exact ⟨congrArg some (authPreimage_inj hm), toBytes_inj hu⟩

theorem miningHash_inj (ha : a.Fits) (hb : b.Fits)
    (hinj : Set.InjOn blake3 {x | a.Identifies x ∨ b.Identifies x})
    (h : a.miningHash = b.miningHash) :
    a = { b with extension := a.extension, auxPow := a.auxPow } := by
  have hA : ∀ x, a.Folds a.prevMidstate x → x ∈ {x | a.Identifies x ∨ b.Identifies x} :=
    fun x hx => .inl (.contents hx)
  have hB : ∀ x, b.Folds b.prevMidstate x → x ∈ {x | a.Identifies x ∨ b.Identifies x} :=
    fun x hx => .inr (.contents hx)
  obtain ⟨hprev, hpost, hroot, htime, htarget, hsigner, hweight⟩ :=
    headerPreimage_inj ha.timestamp hb.timestamp ha.chainWeight hb.chainWeight
      (hinj (.inl .header) (.inr .header) h)
  obtain ⟨hm, hu⟩ := foldBlock_inj hinj hpost hsigner
  obtain ⟨hp, hbody, hcb, hg, hr⟩ := foldUnsigned_inj hinj hA hB ha hb hroot hu
  cases a
  cases b
  simp_all [Batch.header]

/-- A block id fixes the block: two valid blocks of one height and one id are the same in every
part. -/
theorem block_id_fixes_block (ha : a.Fits) (hb : b.Fits) :
    (∀ height, Set.InjOn blake3 {x | a.Identifies x ∨ b.Identifies x} →
      Set.InjOn (powValue (powAlgoAt height)) {i | i = a.powInput ∨ i = b.powInput} →
      (∀ i x, i = a.powInput ∨ i = b.powInput → a.Identifies x ∨ b.Identifies x →
        powValue (powAlgoAt height) i ≠ blake3 x) →
      verifyPow height a.miningHash a.extension a.target a.auxPow = .ok () →
      verifyPow height b.miningHash b.extension b.target b.auxPow = .ok () →
      a.extension.finalHash = b.extension.finalHash → a = b) ∧
    (Set.InjOn blake3 {x | a.Authorizes x ∨ b.Authorizes x} →
      authorizationMessage a.prevMidstate a = authorizationMessage b.prevMidstate b →
      a = { b with miner := a.miner, extension := a.extension, auxPow := a.auxPow }) := by
  constructor
  · intro height hinj hpow hsep hva hvb hid
    rcases verifyPow_id hva with ⟨hna, hfa⟩ | ⟨p, hpa, hca, hfa, hea⟩
    · rcases verifyPow_id hvb with ⟨hnb, hfb⟩ | ⟨q, hqb, -, -, heb⟩
      · have hi := hpow (.inl rfl) (.inr rfl) (hfa.symm.trans (hid.trans hfb))
        rw [Batch.powInput, Batch.powInput, hna, hnb] at hi
        have hab := miningHash_inj ha hb hinj (Prod.mk.inj hi).1
        have hext := extension_ext (Prod.mk.inj hi).2 hid
        rw [hab, hext, hna, ← hnb]
      · rw [hfa, heb] at hid
        exact absurd hid (hsep _ _ (.inl rfl) (.inr (.auxId q hqb)))
    · rcases verifyPow_id hvb with ⟨hnb, hfb⟩ | ⟨q, hqb, hcb, hfb, heb⟩
      · rw [hfb, hea] at hid
        exact absurd hid.symm (hsep _ _ (.inr rfl) (.inl (.auxId p hpa)))
      · have hids := hid
        rw [hea, heb] at hids
        obtain ⟨hfinal, hmh⟩ := auxIdPreimage_inj
          (hinj (.inl (.auxId p hpa)) (.inr (.auxId q hqb)) hids)
        have hi := hpow (.inl rfl) (.inr rfl) (hfa.symm.trans (hfinal.trans hfb))
        rw [Batch.powInput, Batch.powInput, hpa, hqb] at hi
        obtain ⟨-, hpq⟩ := AuxPow.parent_commits_once (ha.auxPow p hpa) (hb.auxPow q hqb)
          (hinj.mono fun x hx => hx.imp (.aux p hpa) (.aux q hqb)) hca hcb (Prod.mk.inj hi).1
        have hnonce := (Prod.mk.inj hi).2
        have hpq : p = q := by
          cases p
          cases q
          simp_all
        have hab := miningHash_inj ha hb hinj hmh
        have hext : a.extension = b.extension := by rw [hea, heb, hfinal, hmh]
        rw [hab, hext, hpa, hpq, ← hqb]
  · intro hinj h
    have hA : ∀ x, a.Folds a.prevMidstate x → x ∈ {x | a.Authorizes x ∨ b.Authorizes x} :=
      fun x hx => .inl (.contents hx)
    have hB : ∀ x, b.Folds b.prevMidstate x → x ∈ {x | a.Authorizes x ∨ b.Authorizes x} :=
      fun x hx => .inr (.contents hx)
    have hshort : ∀ u : Bytes32, ∀ s ∈ [Bytes.ascii "midwimble.block-authorisation.v1",
        u.toBytes, networkMagic], s.length < 2 ^ 64 := by
      intro u
      simp only [List.mem_cons, List.not_mem_nil, or_false]
      rintro s (rfl | rfl | rfl)
      · decide
      · simp
      · decide
    obtain ⟨-, hparts⟩ := domainPreimage_inj (hshort _) (hshort _)
      (hinj (.inl .message) (.inr .message) h)
    have hheader : computeHeaderHash (unsignedHeader a.prevMidstate a) =
        computeHeaderHash (unsignedHeader b.prevMidstate b) :=
      toBytes_inj (List.cons.inj hparts).1
    obtain ⟨hprev, hpost, hroot, htime, htarget, -, hweight⟩ :=
      headerPreimage_inj ha.timestamp hb.timestamp ha.chainWeight hb.chainWeight
        (hinj (.inl .header) (.inr .header) hheader)
    obtain ⟨hp, hbody, hcb, hg, hr⟩ := foldUnsigned_inj hinj hA hB ha hb hroot hpost
    cases a
    cases b
    simp_all [unsignedHeader, Batch.header]

end Identity

/-- A block with none of the optional parts. -/
def bareBlock : Batch where
  prevMidstate := 1
  prevHeaderHash := 2
  body := .empty
  coinbase := none
  extension := ⟨1, 0⟩
  timestamp := 3
  target := BitVec.allOnes 256
  stateRoot := 4
  auxPow := none
  registrations := []
  miner := none
  relay := none
  chainWeight := 5

/-- The block with its proof of work. -/
def bareSolved : Batch :=
  { bareBlock with extension := ⟨1, Primitives.walk bareBlock.miningHash 1⟩ }

omit [Primitives] in
theorem bareBlock_fits (extension : Extension) :
    ({ bareBlock with extension := extension } : Batch).Fits where
  body := ⟨Nat.two_pow_pos _, ⟨Nat.two_pow_pos _, fun _ h => absurd h List.not_mem_nil⟩,
    ⟨Nat.two_pow_pos _, fun _ h => absurd h List.not_mem_nil⟩,
    by simp [bareBlock, Transaction.encode, Transaction.empty, encodeList]⟩
  coinbase := fun _ h => nomatch h
  registrations := ⟨Nat.two_pow_pos _, fun _ h => absurd h List.not_mem_nil⟩
  registrations_encode := by simp [bareBlock, encodeList]
  relay := fun _ h => nomatch h
  timestamp := by simp [bareBlock]
  chainWeight := by simp [bareBlock]
  auxPow := fun _ h => nomatch h

theorem bareSolved_fits : bareSolved.Fits := bareBlock_fits _

def bareHashed : List Bytes :=
  [txPreimage bareSolved.body,
    bareSolved.prevMidstate.toBytes ++ bareSolved.body.hash.toBytes,
    (foldPaid bareSolved.prevMidstate bareSolved).toBytes ++ bareSolved.stateRoot.toBytes,
    headerPreimage bareSolved.header]

theorem bareSolved_hashed (h : bareSolved.Identifies x) : x ∈ bareHashed := by
  cases h with
  | contents h => cases h <;> simp_all [bareHashed, bareSolved, bareBlock]
  | auth m h => simp [bareSolved, bareBlock] at h
  | signed m h => simp [bareSolved, bareBlock] at h
  | header => simp [bareHashed]
  | auxId p h => simp [bareSolved, bareBlock] at h
  | aux p h => simp [bareSolved, bareBlock] at h

omit [Primitives] in
theorem block_id_fixes_block_bare :
    letI := Primitives.mixing
    bareSolved = bareSolved := by
  let := Primitives.mixing
  have hinj : ∀ p ∈ bareHashed, ∀ q ∈ bareHashed, blake3 p = blake3 q → p = q := by
    decide +kernel
  have hsep : ∀ p ∈ bareHashed, powValue .walk bareSolved.powInput ≠ blake3 p := by
    decide +kernel
  refine (block_id_fixes_block bareSolved_fits bareSolved_fits).1 walkActivationHeight ?_ ?_ ?_
    (by decide +kernel) (by decide +kernel) rfl
  · intro p hp q hq
    exact hinj p (hp.elim bareSolved_hashed bareSolved_hashed) q
      (hq.elim bareSolved_hashed bareSolved_hashed)
  · rintro p (rfl | rfl) q (rfl | rfl) - <;> rfl
  · rintro i x (rfl | rfl) hx
    all_goals exact hsep x (hx.elim bareSolved_hashed bareSolved_hashed)

end Midwimble
