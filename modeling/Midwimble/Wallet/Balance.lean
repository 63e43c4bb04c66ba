import Midwimble.Template.Rushed
import Midwimble.Wallet.Reorgs

namespace Midwimble
open Fallible
set_option autoImplicit true

section Outputs

variable [Primitives] {s s' : State} {height : Nat}

theorem utxos_of_spends {inputs : List Input}
    (h : inputs.foldlM (spendInput height) s = .ok s') (c : Point32) :
    s'.utxos[c]? = if c ∈ inputs.map Input.commitment then none else s.utxos[c]? := by
  induction inputs generalizing s with
  | nil =>
    rw [List.foldlM_nil, pure_eq_ok] at h
    rw [h]
    rfl
  | cons i inputs ih =>
    obtain ⟨mid, hi, hrest⟩ := foldlM_cons_eq_ok.mp h
    obtain ⟨entry, -, -, -, rfl⟩ := spendInput_eq_ok.mp hi
    rw [ih hrest]
    by_cases hmem : c ∈ inputs.map Input.commitment
    · simp [hmem]
    · by_cases hc : i.commitment = c
      · simp [hmem, hc]
      · have hne : compare i.commitment c ≠ .eq :=
          fun he => hc (Std.LawfulEqOrd.compare_eq_iff_eq.mp he)
        simp [hmem, Ne.symm hc, Std.ExtTreeMap.getElem?_erase, hne]

/-- What making outputs does to the unspent ones. -/
structure Makes (height : Nat) (created : List (Output × Bool)) (s s' : State) : Prop where
  distinct : (created.map fun o => o.1.commitment).Nodup
  absent : ∀ o ∈ created, s.utxos[o.1.commitment]? = none
  made : ∀ o ∈ created, s'.utxos[o.1.commitment]? = some (utxoEntry height o.2 o.1)
  rest : ∀ c, (∀ o ∈ created, o.1.commitment ≠ c) → s'.utxos[c]? = s.utxos[c]?

theorem Makes.append {created created' : List (Output × Bool)} {t : State}
    (h : Makes height created s t) (h' : Makes height created' t s') :
    Makes height (created ++ created') s s' := by
  have happart : ∀ o ∈ created, ∀ p ∈ created', p.1.commitment ≠ o.1.commitment := by
    intro o ho p hp heq
    have hnone := h'.absent p hp
    rw [heq, h.made o ho] at hnone
    cases hnone
  constructor
  · rw [List.map_append]
    apply List.nodup_append.mpr
    refine ⟨h.distinct, h'.distinct, ?_⟩
    intro c hc d hd heq
    obtain ⟨o, ho, rfl⟩ := List.mem_map.mp hc
    obtain ⟨p, hp, rfl⟩ := List.mem_map.mp hd
    exact happart o ho p hp heq.symm
  · intro o ho
    rcases List.mem_append.mp ho with ho | ho
    · exact h.absent o ho
    · have hnone := h'.absent o ho
      rwa [h.rest _ fun p hp heq => happart p hp o ho heq.symm] at hnone
  · intro o ho
    rcases List.mem_append.mp ho with ho | ho
    · rw [h'.rest _ (happart o ho), h.made o ho]
    · exact h'.made o ho
  · intro c hc
    rw [h'.rest c fun o ho => hc o (List.mem_append_right _ ho),
      h.rest c fun o ho => hc o (List.mem_append_left _ ho)]

theorem makes_output {cb : Bool} {o : Output} (h : addOutput height cb s o = .ok s') :
    Makes height [(o, cb)] s s' := by
  obtain ⟨hnew, rfl⟩ := addOutput_eq_ok.mp h
  constructor
  · exact List.nodup_singleton _
  · intro p hp
    rw [List.mem_singleton.mp hp]
    exact Std.ExtTreeMap.getElem?_eq_none hnew
  · intro p hp
    rw [List.mem_singleton.mp hp]
    exact Std.ExtTreeMap.getElem?_insert_self
  · intro c hc
    have hne : compare o.commitment c ≠ .eq :=
      fun he => hc _ List.mem_cons_self (Std.LawfulEqOrd.compare_eq_iff_eq.mp he)
    exact Std.ExtTreeMap.getElem?_insert.trans (if_neg hne)

theorem makes_outputs {cb : Bool} {outputs : List Output}
    (h : outputs.foldlM (addOutput height cb) s = .ok s') :
    Makes height (outputs.map (·, cb)) s s' := by
  induction outputs generalizing s with
  | nil =>
    rw [List.foldlM_nil, pure_eq_ok] at h
    rw [h]
    exact ⟨List.nodup_nil, nofun, nofun, fun _ _ => rfl⟩
  | cons o outputs ih =>
    obtain ⟨mid, ho, hrest⟩ := foldlM_cons_eq_ok.mp h
    exact (makes_output ho).append (ih hrest)

/-- What an accepted block does to the unspent outputs. -/
structure Turns (s : State) (batch : Batch) (s' : State) : Prop where
  distinct : (batch.created.map fun o => o.1.commitment).Nodup
  apart : ∀ o ∈ batch.created, o.1.commitment ∉ batch.body.inputCommitments
  absent : ∀ o ∈ batch.created, s.utxos[o.1.commitment]? = none
  made : ∀ o ∈ batch.created, s'.utxos[o.1.commitment]? = some (utxoEntry s.height o.2 o.1)
  spent : ∀ c ∈ batch.body.inputCommitments, s'.utxos[c]? = none
  rest : ∀ c, c ∉ batch.body.inputCommitments →
    (∀ o ∈ batch.created, o.1.commitment ≠ c) → s'.utxos[c]? = s.utxos[c]?
  height : s'.height = s.height + 1

omit [Primitives] in
theorem created_eq (batch : Batch) : batch.created =
    batch.body.outputs.map (·, false) ++ (coinbaseOutputs batch.coinbase).map (·, true) := by
  rw [Batch.created, coinbaseOutputs]
  cases batch.coinbase <;> simp

theorem created_apart {batch : Batch} {skip : Bool} {subsidy : Nat} {start : Option Nat}
    (h : validateBlockContents batch height skip subsidy start = .ok ()) :
    ∀ o ∈ batch.created, o.1.commitment ∉ batch.body.inputCommitments := by
  obtain ⟨hstructure, -, -, fees, -, -, hpays⟩ := validateBlockContents_eq_ok.mp h
  intro o ho
  rw [created_eq] at ho
  rcases List.mem_append.mp ho with ho | ho
  · obtain ⟨p, hp, rfl⟩ := List.mem_map.mp ho
    intro hin
    exact (validateStructure_eq_ok.mp hstructure).2.apart _ hin (List.mem_map_of_mem hp)
  · obtain ⟨p, hp, rfl⟩ := List.mem_map.mp ho
    cases hpays with
    | genesis _ hnone _ => rw [hnone] at hp; cases hp
    | nothing _ hnone _ => rw [hnone] at hp; cases hp
    | coinbase cb _ hcb hvalid =>
      rw [hcb] at hp
      obtain ⟨-, -, -, hapart, -⟩ := validateWithCoinbase_eq_ok.mp hvalid
      simp only [checkCoinbaseApart, check_bind_eq_ok, checkAll_eq_ok, bailIf_eq_ok] at hapart
      exact (hapart.1 p hp).2

theorem turns_of_accepts {batch : Batch} (h : Accepts s batch s') : Turns s batch s' := by
  obtain ⟨ts, now, pre, skip, hok⟩ := h
  obtain ⟨-, -, b, -, rfl⟩ := applyBatchInternal_eq_ok.mp hok
  have hnext : b.next.utxos = b.body.rewarded.utxos := by rw [b.next_eq]
  have hspends : ∀ c, b.body.spent.utxos[c]? =
      if c ∈ batch.body.inputCommitments then none else s.utxos[c]? := by
    intro c
    rw [utxos_of_spends b.body.spends, b.base_utxos]
    rfl
  have hmakes : Makes s.height batch.created b.body.spent b.body.rewarded := by
    rw [created_eq, ← b.base_height]
    exact (makes_outputs b.body.pays).append (makes_outputs b.body.rewards)
  have hapart := created_apart b.contents
  constructor
  · exact hmakes.distinct
  · exact hapart
  · intro o ho
    have hnone := hmakes.absent o ho
    rwa [hspends, if_neg (hapart o ho)] at hnone
  · rw [hnext]
    exact hmakes.made
  · intro c hc
    have hnot : ∀ o ∈ batch.created, o.1.commitment ≠ c := by
      rintro o ho rfl
      exact hapart o ho hc
    rw [hnext, hmakes.rest c hnot, hspends, if_pos hc]
  · intro c hc hnot
    rw [hnext, hmakes.rest c hnot, hspends, if_neg hc]
  · exact b.next_height

end Outputs

namespace Wallet

section Coins

variable [Primitives] [Decryption] {keys : WalletKeys} {sent : List Sent} {n : Nat}
  {coins : List WalletCoin} {created : List (Output × Bool)}

/-- The coin of an output that the wallet recognises. -/
def coinOf (keys : WalletKeys) (sent : List Sent) (height : Nat) (o : Output × Bool) :
    Option WalletCoin :=
  (scanOutput keys o.1).map fun owned =>
    ⟨o.1, owned.value, height, o.2, none, reservedFor sent o.1.commitment⟩

/-- Outputs of commitments new to the wallet are added one and all. -/
theorem addCoins_fresh (hdistinct : (created.map fun o => o.1.commitment).Nodup)
    (hfresh : ∀ o ∈ created, (scanOutput keys o.1).isSome →
      o.1.commitment ∉ coins.map WalletCoin.commitment) :
    created.foldl (addCoin keys sent n) coins =
      coins ++ created.filterMap (coinOf keys sent n) := by
  induction created generalizing coins with
  | nil => exact (List.append_nil _).symm
  | cons o created ih =>
    rw [List.map_cons, List.nodup_cons] at hdistinct
    have htail : ∀ p ∈ created, (scanOutput keys p.1).isSome →
        p.1.commitment ∉ coins.map WalletCoin.commitment :=
      fun p hp => hfresh p (List.mem_cons_of_mem _ hp)
    rw [List.foldl_cons, List.filterMap_cons]
    cases howned : scanOutput keys o.1 with
    | none =>
      have hskip : addCoin keys sent n coins o = coins := by
        rw [addCoin, howned]
        split <;> rfl
      have hnone : coinOf keys sent n o = none := by rw [coinOf, howned, Option.map_none]
      rw [hskip, hnone]
      exact ih hdistinct.2 htail
    | some owned =>
      have hnew := hfresh o List.mem_cons_self (by rw [howned]; rfl)
      have hcoin : coinOf keys sent n o =
          some ⟨o.1, owned.value, n, o.2, none, reservedFor sent o.1.commitment⟩ := by
        rw [coinOf, howned, Option.map_some]
      rw [addCoin, if_neg hnew, howned, hcoin]
      dsimp only
      rw [ih hdistinct.2, List.append_assoc]
      · rfl
      · intro p hp hsome hmem
        rw [List.map_append, List.mem_append] at hmem
        rcases hmem with hmem | hmem
        · exact htail p hp hsome hmem
        · have heq : p.1.commitment = o.1.commitment := List.mem_singleton.mp hmem
          exact hdistinct.1 (heq ▸ List.mem_map_of_mem hp)

end Coins

/-- An unspent coin of the wallet's, by what it is. -/
def Unspent (coins : List WalletCoin) (o : Output) (value height : Nat) (coinbase : Bool) : Prop :=
  ∃ c ∈ coins, c.spentHeight = none ∧ c.output = o ∧ c.value = value ∧ c.height = height ∧
    c.coinbase = coinbase

theorem unspent_unreserved {coins : List WalletCoin} {o : Output} {value height : Nat}
    {coinbase : Bool} : Unspent (coins.map WalletCoin.unreserved) o value height coinbase ↔
      Unspent coins o value height coinbase := by
  constructor
  · intro h
    obtain ⟨d, hd, hunspent⟩ := h
    obtain ⟨c, hc, rfl⟩ := List.mem_map.mp hd
    exact ⟨c, hc, hunspent⟩
  · intro h
    obtain ⟨c, hc, hunspent⟩ := h
    exact ⟨c.unreserved, List.mem_map_of_mem hc, hunspent⟩

section Histories

variable [Primitives]

/-- The state after the blocks of a history, each kept with the state it left. -/
def tip (history : List (Batch × State)) : State :=
  (history.getLast?).elim .genesis Prod.snd

/-- Blocks accepted one after another from genesis. -/
inductive History : List (Batch × State) → Prop where
  | genesis : History []
  | block {history : List (Batch × State)} {b : Batch} {s : State} : History history →
      Accepts (tip history) b s → History (history ++ [(b, s)])

theorem tip_append (history : List (Batch × State)) (b : Batch) (s : State) :
    tip (history ++ [(b, s)]) = s := by
  rw [tip, List.getLast?_append]
  rfl

theorem History.height {history : List (Batch × State)} (h : History history) :
    (tip history).height = history.length := by
  induction h with
  | genesis => rfl
  | block _ hok ih =>
    rw [tip_append, (turns_of_accepts hok).height, ih, List.length_append, List.length_singleton]

theorem History.take {history : List (Batch × State)} (h : History history) (n : Nat) :
    History (history.take n) := by
  induction h with
  | genesis =>
    rw [List.take_nil]
    exact .genesis
  | block hprev hok ih =>
    rename_i history b s
    by_cases hn : n ≤ history.length
    · rw [List.take_append_of_le_length hn]
      exact ih
    · rw [List.take_of_length_le (by rw [List.length_append, List.length_singleton]; omega)]
      exact .block hprev hok

variable [Decryption]

/-- An unspent output of the chain's, made at or above the birth height, that the wallet
recognises. -/
def Owned (keys : WalletKeys) (birthHeight : Nat) (history : List (Batch × State)) (o : Output)
    (value height : Nat) (coinbase : Bool) : Prop :=
  birthHeight ≤ height ∧
    (∃ e, history[height]? = some e ∧ (o, coinbase) ∈ e.1.created) ∧
    (tip history).utxos[o.commitment]? = some (utxoEntry height coinbase o) ∧
    ∃ owned, scanOutput keys o = some owned ∧ owned.value = value

/-- The unspent coins are the chain's. -/
def Balanced (keys : WalletKeys) (birthHeight : Nat) (history : List (Batch × State))
    (coins : List WalletCoin) : Prop :=
  ∀ o value height coinbase, Unspent coins o value height coinbase ↔
    Owned keys birthHeight history o value height coinbase

/-- No output that the wallet recognises has the commitment of a coin it holds as spent. -/
def Fresh (w : Wallet) (b : Batch) : Prop :=
  ∀ o ∈ b.created, (scanOutput w.keys o.1).isSome → ∀ c ∈ w.coins,
    c.commitment = o.1.commitment → c.spentHeight = none

variable {w w' : Wallet} {history : List (Batch × State)} {b : Batch} {s : State}
  {birthHeight : Nat}

theorem Balanced.coins_eq (h : Balanced w.keys birthHeight history w.coins)
    (hturns : Turns (tip history) b s) (hfresh : Fresh w b)
    (hok : w.scanBlock w.scannedHeight b = .ok w') :
    ∃ sent, w'.coins = w.coins.map (markSpent w.scannedHeight b.body.inputCommitments) ++
      b.created.filterMap (coinOf w.keys sent w.scannedHeight) := by
  obtain ⟨-, -, rfl⟩ := scanBlock_eq_ok.mp hok
  refine ⟨_, addCoins_fresh hturns.distinct ?_⟩
  intro o ho hsome hmem
  rw [List.map_map] at hmem
  obtain ⟨c, hc, heq⟩ := List.mem_map.mp hmem
  rw [Function.comp_apply, markSpent_commitment] at heq
  have hunspent := hfresh o ho hsome c hc heq
  obtain ⟨-, -, hutxo, -⟩ := (h _ _ _ _).mp ⟨c, hc, hunspent, rfl, rfl, rfl, rfl⟩
  have hnone := hturns.absent o ho
  rw [← heq] at hnone
  exact Option.some_ne_none _ (hutxo.symm.trans hnone)

/-- The unspent coins after a block: those it does not spend, and the new ones. -/
theorem unspent_append {coins : List WalletCoin} {spent : List Point32} {sent : List Sent}
    {created : List (Output × Bool)} {n : Nat} {o : Output} {value height : Nat}
    {coinbase : Bool} {keys : WalletKeys} :
    Unspent (coins.map (markSpent n spent) ++ created.filterMap (coinOf keys sent n))
        o value height coinbase ↔
      (Unspent coins o value height coinbase ∧ o.commitment ∉ spent) ∨
        (height = n ∧ (o, coinbase) ∈ created ∧
          ∃ owned, scanOutput keys o = some owned ∧ owned.value = value) := by
  constructor
  · intro hunspent
    obtain ⟨c, hc, hnone, rfl, rfl, rfl, rfl⟩ := hunspent
    rcases List.mem_append.mp hc with hc | hc
    · obtain ⟨d, hd, rfl⟩ := List.mem_map.mp hc
      rcases markSpent_cases n spent d with ⟨-, -, heq⟩ | ⟨hkept, heq⟩
      · rw [heq] at hnone
        cases hnone
      · rw [heq] at hnone ⊢
        exact .inl ⟨⟨d, hd, hnone, rfl, rfl, rfl, rfl⟩, hkept hnone⟩
    · obtain ⟨p, hp, hcoin⟩ := List.mem_filterMap.mp hc
      obtain ⟨owned, howned, rfl⟩ := Option.map_eq_some_iff.mp hcoin
      exact .inr ⟨rfl, hp, owned, howned, rfl⟩
  · intro h
    rcases h with ⟨hunspent, hin⟩ | ⟨rfl, hmem, owned, hscan, rfl⟩
    · obtain ⟨c, hc, hnone, rfl, hsame⟩ := hunspent
      have hmark : markSpent n spent c = c := by
        rcases markSpent_cases n spent c with ⟨-, hspent, -⟩ | ⟨-, heq⟩
        · exact absurd hspent hin
        · exact heq
      exact ⟨c, List.mem_append_left _ (List.mem_map.mpr ⟨c, hc, hmark⟩), hnone, rfl, hsame⟩
    · have hcoin : coinOf keys sent height (o, coinbase) =
          some ⟨o, owned.value, height, coinbase, none, reservedFor sent o.commitment⟩ := by
        rw [coinOf, hscan, Option.map_some]
      exact ⟨_, List.mem_append_right _ (List.mem_filterMap.mpr ⟨_, hmem, hcoin⟩), rfl, rfl, rfl,
        rfl, rfl⟩

/-- The wallet's unspent outputs after a block: those it does not spend, and its own. -/
theorem owned_append {keys : WalletKeys} {o : Output} {value height : Nat} {coinbase : Bool}
    (hturns : Turns (tip history) b s) (hlength : (tip history).height = history.length)
    (hborn : birthHeight ≤ history.length) :
    Owned keys birthHeight (history ++ [(b, s)]) o value height coinbase ↔
      (Owned keys birthHeight history o value height coinbase ∧
        o.commitment ∉ b.body.inputCommitments) ∨
      (height = history.length ∧ (o, coinbase) ∈ b.created ∧
        ∃ owned, scanOutput keys o = some owned ∧ owned.value = value) := by
  rw [Owned, Owned, tip_append]
  constructor
  · intro h
    obtain ⟨hle, ⟨e, he, hmem⟩, hutxo, hopens⟩ := h
    by_cases hlt : height < history.length
    · rw [List.getElem?_append_left hlt] at he
      have hin : o.commitment ∉ b.body.inputCommitments := by
        intro hin
        rw [hturns.spent _ hin] at hutxo
        cases hutxo
      have hnew : ∀ p ∈ b.created, p.1.commitment ≠ o.commitment := by
        intro p hp heq
        have hmade := hturns.made p hp
        rw [heq, hutxo, Option.some.injEq] at hmade
        have hheights : height = (tip history).height := congrArg UtxoEntry.height hmade
        omega
      rw [hturns.rest _ hin hnew] at hutxo
      exact .inl ⟨⟨hle, ⟨e, he, hmem⟩, hutxo, hopens⟩, hin⟩
    · have hlast : height = history.length := by
        have hlt' := (List.getElem?_eq_some_iff.mp he).1
        rw [List.length_append, List.length_singleton] at hlt'
        omega
      subst hlast
      rw [List.getElem?_concat_length] at he
      obtain rfl := Option.some.inj he
      exact .inr ⟨rfl, hmem, hopens⟩
  · intro h
    rcases h with ⟨⟨hle, ⟨e, he, hmem⟩, hutxo, hopens⟩, hin⟩ | ⟨rfl, hmem, hopens⟩
    · have hold : (history ++ [(b, s)])[height]? = some e := by
        rw [List.getElem?_append_left (List.getElem?_eq_some_iff.mp he).1]
        exact he
      have hnew : ∀ p ∈ b.created, p.1.commitment ≠ o.commitment := by
        intro p hp heq
        have hnone := hturns.absent p hp
        rw [heq, hutxo] at hnone
        cases hnone
      rw [hturns.rest _ hin hnew]
      exact ⟨hle, ⟨e, hold, hmem⟩, hutxo, hopens⟩
    · have hmade := hturns.made _ hmem
      rw [hlength] at hmade
      exact ⟨hborn, ⟨(b, s), List.getElem?_concat_length, hmem⟩, hmade, hopens⟩

theorem Balanced.block (h : Balanced w.keys birthHeight history w.coins)
    (hhistory : History history) (hheight : w.scannedHeight = history.length)
    (hborn : birthHeight ≤ history.length) (haccepts : Accepts (tip history) b s)
    (hfresh : Fresh w b) (hok : w.scanBlock w.scannedHeight b = .ok w') :
    Balanced w.keys birthHeight (history ++ [(b, s)]) w'.coins := by
  have hturns := turns_of_accepts haccepts
  obtain ⟨sent, hcoins⟩ := h.coins_eq hturns hfresh hok
  intro o value height coinbase
  rw [hcoins, hheight, unspent_append, h o value height coinbase,
    owned_append hturns hhistory.height hborn]

end Histories

/-- Calls that keep the books of payments: they are made, released, discarded or failed. -/
def Call.Books [Primitives] : Call → Prop
  | .buildSend .. | .cancelPending _ | .discardSend _ | .settleOrphans => True
  | _ => False

/-- A wallet kept on a chain: blocks accepted and scanned, rollbacks to the birth height or above
when the chain is cut back, and payments. -/
inductive Followed [Primitives] [Decryption] (allowed : Wallet → Batch → Prop) (keys : WalletKeys)
    (birthHeight : Nat) : List (Batch × State) → Wallet → Prop where
  | born {history : List (Batch × State)} : History history → history.length = birthHeight →
      Followed allowed keys birthHeight history (restore keys birthHeight)
  | scan {history : List (Batch × State)} {w w' : Wallet} {b : Batch} {s : State} :
      Followed allowed keys birthHeight history w → Accepts (tip history) b s → allowed w b →
      w.scanBlock w.scannedHeight b = .ok w' →
      Followed allowed keys birthHeight (history ++ [(b, s)]) w'
  | rollback {history : List (Batch × State)} {w : Wallet} {n : Nat} :
      Followed allowed keys birthHeight history w → birthHeight ≤ n → n ≤ history.length →
      Followed allowed keys birthHeight (history.take n) (w.rollbackTo n).1
  | book {history : List (Batch × State)} {w w' : Wallet} {c : Call} :
      Followed allowed keys birthHeight history w → c.Books → w.does c = .ok w' →
      Followed allowed keys birthHeight history w'

section Following

variable [Primitives] [Decryption] {w w' : Wallet} {history : List (Batch × State)} {b : Batch}
  {s : State} {keys : WalletKeys} {birthHeight : Nat}

/-- Rolled back to any height from its birth on, the wallet's unspent coins are those of the
chain up to there. -/
structure Kept (keys : WalletKeys) (birthHeight : Nat) (history : List (Batch × State))
    (w : Wallet) : Prop where
  accepted : History history
  below : ∀ c ∈ w.coins, c.height < w.scannedHeight ∧ ∀ k ∈ c.spentHeight, k < w.scannedHeight
  owner : w.keys = keys
  birth : w.birthHeight = birthHeight
  height : w.scannedHeight = history.length
  born : birthHeight ≤ history.length
  distinct : (w.coins.map WalletCoin.commitment).Nodup
  balanced : ∀ k, birthHeight ≤ k → k ≤ history.length →
    Balanced keys birthHeight (history.take k) (undoCoins k w.coins)

theorem Balanced.unreserved {coins coins' : List WalletCoin}
    (h : Balanced keys birthHeight history coins)
    (hcoins : coins'.map WalletCoin.unreserved = coins.map WalletCoin.unreserved) :
    Balanced keys birthHeight history coins' := by
  intro o value height coinbase
  rw [← unspent_unreserved, hcoins, unspent_unreserved]
  exact h o value height coinbase

theorem Kept.now (h : Kept keys birthHeight history w) :
    Balanced keys birthHeight history w.coins := by
  have hall := h.balanced history.length h.born (Nat.le_refl _)
  rw [List.take_length, ← h.height, undoCoins_below h.below] at hall
  apply hall.unreserved
  rw [List.map_map]
  rfl

theorem nodup_addCoins {sent : List Sent} {n : Nat} {created : List (Output × Bool)}
    {coins : List WalletCoin} (h : (coins.map WalletCoin.commitment).Nodup) :
    ((created.foldl (addCoin keys sent n) coins).map WalletCoin.commitment).Nodup := by
  induction created generalizing coins with
  | nil => exact h
  | cons o created ih =>
    apply ih
    unfold addCoin
    split
    · exact h
    · rename_i hnew
      split
      · rw [List.map_append]
        apply List.nodup_append.mpr
        refine ⟨h, List.nodup_singleton _, ?_⟩
        rintro c hc d hd rfl
        have heq : c = o.1.commitment := List.mem_singleton.mp hd
        exact hnew (heq ▸ hc)
      · exact h

theorem Kept.scan (h : Kept keys birthHeight history w) (haccepts : Accepts (tip history) b s)
    (hfresh : Fresh w b) (hok : w.scanBlock w.scannedHeight b = .ok w') :
    Kept keys birthHeight (history ++ [(b, s)]) w' := by
  have hlength : (history ++ [(b, s)]).length = history.length + 1 := by
    rw [List.length_append, List.length_singleton]
  have hbelow : ∀ c ∈ w'.coins,
      c.height < w'.scannedHeight ∧ ∀ k ∈ c.spentHeight, k < w'.scannedHeight := by
    obtain ⟨-, -, rfl⟩ := scanBlock_eq_ok.mp hok
    apply below_addCoins
    intro d hd
    obtain ⟨c, hc, rfl⟩ := List.mem_map.mp hd
    exact below_markSpent (h.below c hc)
  have hnow := h.now
  have hundo := fun k (hk : k ≤ w.scannedHeight) => undo_scanBlock hk hok
  obtain ⟨-, -, -, -, hkeys, hbirth⟩ := hundo 0 (Nat.zero_le _)
  have hheight : w'.scannedHeight = history.length + 1 := by
    obtain ⟨-, -, rfl⟩ := scanBlock_eq_ok.mp hok
    rw [← h.height]
  have hblock : Balanced keys birthHeight (history ++ [(b, s)]) w'.coins := by
    rw [← h.owner] at hnow ⊢
    exact hnow.block h.accepted h.height h.born haccepts hfresh hok
  constructor
  · exact .block h.accepted haccepts
  · exact hbelow
  · rw [hkeys, h.owner]
  · rw [hbirth, h.birth]
  · rw [hheight, hlength]
  · rw [hlength]
    exact Nat.le_succ_of_le h.born
  · obtain ⟨-, -, rfl⟩ := scanBlock_eq_ok.mp hok
    apply nodup_addCoins
    rw [map_commitment fun c => markSpent_commitment]
    exact h.distinct
  · intro k hborn hk
    by_cases hle : k ≤ history.length
    · rw [List.take_append_of_le_length hle, (hundo k (by rw [h.height]; exact hle)).1]
      exact h.balanced k hborn hle
    · have hk' : k = w'.scannedHeight := by omega
      rw [List.take_of_length_le (by omega), hk', undoCoins_below hbelow]
      apply hblock.unreserved
      rw [List.map_map]
      rfl

/-- What is kept depends on coins up to reservations. -/
theorem Kept.rebook (h : Kept keys birthHeight history w) (hkeys : w'.keys = w.keys)
    (hbirth : w'.birthHeight = w.birthHeight) (hheight : w'.scannedHeight = w.scannedHeight)
    (hcoins : w'.coins.map WalletCoin.unreserved = w.coins.map WalletCoin.unreserved) :
    Kept keys birthHeight history w' where
  accepted := h.accepted
  below := by
    rw [hheight]
    intro c hc
    have hmem : c.unreserved ∈ w.coins.map WalletCoin.unreserved :=
      hcoins ▸ List.mem_map_of_mem hc
    obtain ⟨d, hd, heq⟩ := List.mem_map.mp hmem
    have hsame := congrArg WalletCoin.height heq
    have hspent := congrArg WalletCoin.spentHeight heq
    dsimp only [WalletCoin.unreserved] at hsame hspent
    rw [← hsame, ← hspent]
    exact h.below d hd
  owner := hkeys.trans h.owner
  birth := hbirth.trans h.birth
  height := hheight.trans h.height
  born := h.born
  distinct := by
    have hsame := congrArg (List.map WalletCoin.commitment) hcoins
    rw [List.map_map, List.map_map] at hsame
    have hcommitments : w'.coins.map WalletCoin.commitment =
        w.coins.map WalletCoin.commitment := hsame
    rw [hcommitments]
    exact h.distinct
  balanced := by
    intro k hborn hk
    rw [← undoCoins_unreserved, hcoins, undoCoins_unreserved]
    exact h.balanced k hborn hk

theorem Kept.rollback {n : Nat} (h : Kept keys birthHeight history w) (hborn : birthHeight ≤ n)
    (hn : n ≤ history.length) : Kept keys birthHeight (history.take n) (w.rollbackTo n).1 where
  accepted := h.accepted.take n
  below := by
    intro c hc
    have hmem : c.unreserved ∈ undoCoins n w.coins := by
      rw [← rollbackTo_coins]
      exact List.mem_map_of_mem hc
    obtain ⟨d, hd, heq⟩ := List.mem_map.mp hmem
    obtain ⟨hd, hlow⟩ := List.mem_filter.mp hd
    obtain ⟨hheight, hspent⟩ := h.below d hd
    have hsame := congrArg WalletCoin.height heq
    have hcut := congrArg WalletCoin.spentHeight heq
    dsimp only [WalletCoin.unreserved, unspend] at hsame hcut
    show c.height < min w.scannedHeight n ∧ ∀ k ∈ c.spentHeight, k < min w.scannedHeight n
    rw [← hsame, ← hcut]
    refine ⟨lt_min hheight (of_decide_eq_true hlow), ?_⟩
    intro k hk
    obtain ⟨hk, hlt⟩ := Option.mem_filter_iff.mp hk
    exact lt_min (hspent k hk) (of_decide_eq_true hlt)
  owner := h.owner
  birth := h.birth
  height := by
    show min w.scannedHeight n = _
    rw [List.length_take, h.height, Nat.min_comm]
  born := by
    rw [List.length_take, Nat.min_eq_left hn]
    exact hborn
  distinct := by
    have hsame : (w.rollbackTo n).1.coins.map WalletCoin.commitment =
        (undoCoins n w.coins).map WalletCoin.commitment := by
      rw [← rollbackTo_coins, List.map_map]
      rfl
    rw [hsame, undoCoins, List.map_map]
    exact (List.filter_sublist.map _).nodup h.distinct
  balanced := by
    intro k hk hle
    rw [List.length_take, Nat.min_eq_left hn] at hle
    rw [List.take_take, Nat.min_eq_left hle, ← undoCoins_unreserved, rollbackTo_coins,
      undoCoins_undoCoins hle]
    exact h.balanced k hk (hle.trans hn)

omit [Primitives] [Decryption] in
theorem map_unreserved {coins : List WalletCoin} {f : WalletCoin → WalletCoin}
    (h : ∀ c, (f c).unreserved = c.unreserved) :
    (coins.map f).map WalletCoin.unreserved = coins.map WalletCoin.unreserved := by
  rw [List.map_map]
  exact List.map_congr_left fun c _ => h c

theorem does_books {c : Call} (hbooks : c.Books) (hok : w.does c = .ok w') :
    w'.keys = w.keys ∧ w'.birthHeight = w.birthHeight ∧ w'.scannedHeight = w.scannedHeight ∧
      w'.coins.map WalletCoin.unreserved = w.coins.map WalletCoin.unreserved := by
  cases c with
  | buildSend =>
    obtain rfl := Except.ok.inj hok
    unfold Wallet.buildSend
    split
    · exact ⟨rfl, rfl, rfl, rfl⟩
    · dsimp only
      split
      all_goals
        refine ⟨rfl, rfl, rfl, map_unreserved ?_⟩
        intro c
        split <;> rfl
  | cancelPending =>
    obtain rfl := Except.ok.inj hok
    refine ⟨rfl, rfl, rfl, map_unreserved ?_⟩
    intro c
    split <;> rfl
  | discardSend =>
    obtain rfl := Except.ok.inj hok
    refine ⟨rfl, rfl, rfl, map_unreserved ?_⟩
    intro c
    split <;> rfl
  | settleOrphans =>
    obtain rfl := Except.ok.inj hok
    refine ⟨rfl, rfl, rfl, map_unreserved ?_⟩
    intro c
    split <;> rfl
  | scanBlock | rollbackTo | rescanFrom => exact hbooks.elim

theorem kept_of_followed (h : Followed Fresh keys birthHeight history w) :
    Kept keys birthHeight history w := by
  induction h with
  | born hhistory hlength =>
    refine ⟨hhistory, nofun, rfl, rfl, hlength.symm, hlength.symm.le, List.nodup_nil, ?_⟩
    intro k hborn hk o value height coinbase
    constructor
    · intro hunspent
      obtain ⟨c, hc, -⟩ := hunspent
      cases hc
    · intro howned
      obtain ⟨hle, ⟨e, he, -⟩, -⟩ := howned
      have hlt := (List.getElem?_eq_some_iff.mp he).1
      rw [List.length_take] at hlt
      omega
  | scan _ haccepts hfresh hok ih => exact ih.scan haccepts hfresh hok
  | rollback _ hborn hn ih => exact ih.rollback hborn hn
  | book _ hbooks hok ih =>
    obtain ⟨hkeys, hbirth, hheight, hcoins⟩ := does_books hbooks hok
    exact ih.rebook hkeys hbirth hheight hcoins

/-- The unspent coins are the chain's unspent outputs that the wallet recognises, as long as no
block makes one under the commitment of a coin the wallet holds as spent. -/
theorem unspent_coins_on_chain (h : Followed Fresh keys birthHeight history w) :
    (w.coins.map WalletCoin.commitment).Nodup ∧
      ∀ o value height coinbase, Unspent w.coins o value height coinbase ↔
        Owned keys birthHeight history o value height coinbase :=
  ⟨(kept_of_followed h).distinct, (kept_of_followed h).now⟩

end Following

section Reused

local instance reusedWords : Primitives := Primitives.words

local instance : Decryption := ⟨fun _ _ data => some (data.take 40)⟩

def reusedKeys : WalletKeys := ⟨1, 1, 0⟩

/-- An output of the wallet's that holds nothing. -/
def reusedOutput : Output where
  commitment := 1000
  ownerKey := 1 <<< 128
  ephemeralKey := 1
  viewTag := 0
  payload := List.replicate 62 0 ++ [3, 232] ++ List.replicate 16 0
  recoveryCommitment := 0

def reusedKernel (excess : Bytes32) : Kernel := ⟨.plain, 0, 0, excess, 1 <<< 128, ⟨0, 0, 0⟩⟩

/-- A body that makes the output. -/
def making (excess offset : Bytes32) : Transaction :=
  ⟨⟨[], [⟨[reusedOutput], List.replicate 672 0⟩], [reusedKernel excess]⟩, offset, -1⟩

/-- A body that spends it. -/
def spending : Transaction :=
  ⟨⟨[⟨1000, 1 <<< 128, ⟨0, 0⟩⟩], [], [reusedKernel (-1000)]⟩, 0, 0⟩

/-- The next block with a body. -/
def reusedBlock (s : State) (body : Transaction) : Batch where
  prevMidstate := s.mwMidstate
  prevHeaderHash := s.headerHash
  body := body
  coinbase := rushedPaid s.height
  extension := ⟨0, 0⟩
  timestamp := rushedStamp s.height
  target := s.target
  stateRoot := 0
  auxPow := none
  registrations := []
  miner := none
  relay := none
  chainWeight := satAdd128 s.weight
    (weighBlock s .empty none s.target (rushedStamp s.height)).credited

/-- When the blocks below a height are stamped. -/
def reusedStamps (height : Nat) : List Nat := (List.range height).map rushedStamp

/-- The block applied, its proof of work taken as checked. -/
def applied (s : State) (body : Transaction) : Result State :=
  applyBatchInternal s (reusedBlock s body) (reusedStamps s.height) (rushedStamp s.height)
    (some 0) false

theorem accepted_of_applied {s t : State} {body : Transaction} (h : applied s body = .ok t)
    (hheight : s.height ≠ 0) (htarget : s.target ≠ 0)
    (hstamp : validateTimestamp (rushedStamp s.height) (reusedStamps s.height)
      (rushedStamp s.height) = .ok ()) :
    applyBatch s (reusedBlock s body) (reusedStamps s.height) (rushedStamp s.height) = .ok t := by
  obtain ⟨hlinked, -, hsteps⟩ := applyBatchInternal_eq_ok.mp h
  apply applyBatchInternal_eq_ok.mpr
  refine ⟨hlinked, ?_, hsteps⟩
  have hpow := solves s.height
    (computeHeaderHash (candidateHeader s (reusedBlock s body))) htarget
  have hstamp' : validateTimestamp (reusedBlock s body).timestamp (reusedStamps s.height)
      (rushedStamp s.height) = .ok () := hstamp
  rw [checkHeader, if_neg hheight, hstamp', bind_ok]
  exact hpow

/-- The state after genesis, its hash worked out. -/
def reusedFirst : State := { State.first with headerHash := 0 }

theorem first_eq : State.first = reusedFirst := by
  have hzero : ∀ midstate : Bytes32, (createExtension midstate 0).finalHash = 0 := by
    intro midstate
    have hh : hash (midstate.toBytes ++ Bytes.le 8 0) = 0 := by
      rw [hash, blake3_eq, if_neg]
      simp [Bytes32.toBytes]
    simp only [createExtension, hh, hashTimes_zero]
  have hhash : State.first.headerHash = 0 := by
    obtain ⟨midstate, hextension⟩ : ∃ midstate,
        Batch.genesis.extension = createExtension midstate 0 := ⟨_, rfl⟩
    rw [State.first, BlockSteps.next_eq]
    dsimp only
    rw [hextension, hzero]
  rw [reusedFirst, ← hhash]

def madeState : State := (applied reusedFirst (making 1000 0)).toOption.getD reusedFirst

def spentState : State := (applied madeState spending).toOption.getD reusedFirst

def remadeState : State := (applied spentState (making 999 1)).toOption.getD reusedFirst

theorem made_accepted : Accepts .first (reusedBlock reusedFirst (making 1000 0)) madeState := by
  rw [first_eq]
  exact ⟨_, _, none, false, accepted_of_applied (ok_of_isOk (by decide +kernel) _)
    (by decide +kernel) (by decide +kernel) (by decide +kernel)⟩

theorem spent_accepted : Accepts madeState (reusedBlock madeState spending) spentState :=
  ⟨_, _, none, false, accepted_of_applied (ok_of_isOk (by decide +kernel) _)
    (by decide +kernel) (by decide +kernel) (by decide +kernel)⟩

theorem remade_accepted :
    Accepts spentState (reusedBlock spentState (making 999 1)) remadeState :=
  ⟨_, _, none, false, accepted_of_applied (ok_of_isOk (by decide +kernel) _)
    (by decide +kernel) (by decide +kernel) (by decide +kernel)⟩

/-- Genesis and the block that makes the output. -/
def madeHistory : List (Batch × State) :=
  [(.genesis, .first)] ++ [(reusedBlock reusedFirst (making 1000 0), madeState)]

/-- Two blocks more: one spends the output, one makes it again. -/
def remadeHistory : List (Batch × State) :=
  madeHistory ++ [(reusedBlock madeState spending, spentState)] ++
    [(reusedBlock spentState (making 999 1), remadeState)]

theorem genesis_history : History [(.genesis, .first)] :=
  History.genesis.block ⟨_, _, _, _, genesis_accepted 0⟩

/-- The wallet after one more block. -/
def scanned (w : Wallet) (b : Batch) : Wallet := (w.scanBlock w.scannedHeight b).toOption.getD w

def madeWallet : Wallet := scanned (restore reusedKeys 1) (reusedBlock reusedFirst (making 1000 0))

def spentWallet : Wallet := scanned madeWallet (reusedBlock madeState spending)

def remadeWallet : Wallet := scanned spentWallet (reusedBlock spentState (making 999 1))

theorem scanned_ok {w : Wallet} {b : Batch}
    (h : (w.scanBlock w.scannedHeight b).isOk = true) :
    w.scanBlock w.scannedHeight b = .ok (scanned w b) := ok_of_isOk h _

theorem followed_made {allowed : Wallet → Batch → Prop}
    (h : allowed (restore reusedKeys 1) (reusedBlock reusedFirst (making 1000 0))) :
    Followed allowed reusedKeys 1 madeHistory madeWallet :=
  (Followed.born genesis_history rfl).scan made_accepted h (scanned_ok (by decide +kernel))

theorem followed_remade : Followed (fun _ _ => True) reusedKeys 1 remadeHistory remadeWallet := by
  apply Followed.scan
  · apply Followed.scan (followed_made trivial)
    · rw [madeHistory, tip_append]
      exact spent_accepted
    · trivial
    · exact scanned_ok (by decide +kernel)
  · rw [tip_append]
    exact remade_accepted
  · trivial
  · exact scanned_ok (by decide +kernel)

theorem reused_opens : (scanOutput reusedKeys reusedOutput).map OwnedOutput.value = some 0 := by
  decide +kernel

/-- An output made again is missing from the balance. -/
theorem remade_output_missing :
    ¬ ∀ (keys : WalletKeys) (birthHeight : Nat) (history : List (Batch × State)) (w : Wallet),
      Followed (fun _ _ => True) keys birthHeight history w →
        ∀ o value height coinbase, Unspent w.coins o value height coinbase ↔
          Owned keys birthHeight history o value height coinbase := by
  intro hall
  have hcreated : (reusedOutput, false) ∈ (reusedBlock spentState (making 999 1)).created :=
    List.mem_append_left _ List.mem_cons_self
  have howned : Owned reusedKeys 1 remadeHistory reusedOutput 0 3 false := by
    refine ⟨by decide, ⟨(_, remadeState), rfl, hcreated⟩, ?_,
      Option.map_eq_some_iff.mp reused_opens⟩
    have hmade := (turns_of_accepts remade_accepted).made _ hcreated
    have hheight : spentState.height = 3 := by decide +kernel
    rw [hheight] at hmade
    rw [remadeHistory, tip_append]
    exact hmade
  obtain ⟨c, hc, hunspent, houtput, -⟩ := (hall _ _ _ _ followed_remade _ _ _ _).mpr howned
  have hspent : ∀ c ∈ remadeWallet.coins,
      c.output = reusedOutput → c.spentHeight ≠ none := by
    decide +kernel
  exact hspent c hc houtput hunspent

/-- Another output of the wallet's. -/
def otherOutput : Output :=
  { reusedOutput with
    commitment := 1001
    payload := List.replicate 62 0 ++ [3, 233] ++ List.replicate 16 0 }

/-- A body that makes it. -/
def makingOther : Transaction :=
  ⟨⟨[], [⟨[otherOutput], List.replicate 672 0⟩], [reusedKernel 1001]⟩, 0, -1⟩

/-- The state that the block leaves. -/
def otherState : {s : State // Accepts spentState (reusedBlock spentState makingOther) s} :=
  ⟨(applied spentState makingOther).toOption.getD reusedFirst, _, _, none, false,
    accepted_of_applied (ok_of_isOk (by decide +kernel) _)
      (by decide +kernel) (by decide +kernel) (by decide +kernel)⟩

/-- The output is spent and the other one made. -/
def otherHistory : List (Batch × State) :=
  madeHistory ++ [(reusedBlock madeState spending, spentState)] ++
    [(reusedBlock spentState makingOther, otherState.1)]

def otherWallet : Wallet := scanned spentWallet (reusedBlock spentState makingOther)

theorem followed_other : Followed Fresh reusedKeys 1 otherHistory otherWallet := by
  apply Followed.scan
  · apply Followed.scan (followed_made ?_)
    · rw [madeHistory, tip_append]
      exact spent_accepted
    · have hheld : ∀ c ∈ madeWallet.coins, c.spentHeight = none := by decide +kernel
      exact fun _ _ _ c hc _ => hheld c hc
    · exact scanned_ok (by decide +kernel)
    · intro o _ _ c hc
      cases hc
  · rw [tip_append]
    exact otherState.2
  · have hapart : ∀ o ∈ (reusedBlock spentState makingOther).created,
        (scanOutput spentWallet.keys o.1).isSome → ∀ c ∈ spentWallet.coins,
          c.commitment ≠ o.1.commitment := by
      decide +kernel
    exact fun o ho hscan c hc he => absurd he (hapart o ho hscan c hc)
  · exact scanned_ok (by decide +kernel)

/-- The output that was spent is not counted, the other one is. -/
theorem unspent_coins_on_chain_other :
    Owned reusedKeys 1 otherHistory otherOutput 0 3 false ∧
      ¬ Owned reusedKeys 1 otherHistory reusedOutput 0 1 false := by
  obtain ⟨-, hunspent⟩ := unspent_coins_on_chain followed_other
  have hheld : ∃ c ∈ otherWallet.coins,
      c.spentHeight = none ∧ c.output = otherOutput ∧ c.value = 0 ∧ c.height = 3 ∧
        c.coinbase = false := by
    decide +kernel
  have hspent : ¬ ∃ c ∈ otherWallet.coins,
      c.spentHeight = none ∧ c.output = reusedOutput ∧ c.value = 0 ∧ c.height = 1 ∧
        c.coinbase = false := by
    decide +kernel
  exact ⟨(hunspent _ _ _ _).mp hheld, fun howned => hspent ((hunspent _ _ _ _).mpr howned)⟩

end Reused

end Wallet

end Midwimble
