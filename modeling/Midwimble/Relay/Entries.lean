import Midwimble.Core.Relay
import Midwimble.Lib.Fallible
import Midwimble.Lib.Indexed

namespace Midwimble
open Indexed
set_option autoImplicit true

/-- Entries at consecutive heights, lowest first. -/
def Rises (es : List RelayEntry) : Prop := es.IsChain fun a b => b.height = a.height + 1

theorem Rises.pairwise (h : Rises es) : es.Pairwise fun a b => a.height < b.height :=
  List.isChain_iff_pairwise.mp (List.IsChain.imp (fun a b hab => by omega) h)

theorem Rises.heights (h : Rises (e :: es)) :
    (e :: es).map RelayEntry.height = List.range' e.height (es.length + 1) := by
  induction es generalizing e with
  | nil => rfl
  | cons e' es ih =>
    obtain ⟨he, hr⟩ := List.isChain_cons_cons.mp h
    rw [List.map_cons, ih hr, he, List.length_cons, ← List.range'_succ]

theorem Rises.getLast_height (h : Rises (e :: es)) :
    ((e :: es).getLast (List.cons_ne_nil _ _)).height = e.height + es.length := by
  induction es generalizing e with
  | nil => rfl
  | cons e' es ih =>
    obtain ⟨he, hr⟩ := List.isChain_cons_cons.mp h
    rw [List.getLast_cons_cons, ih hr, he, List.length_cons]
    omega

theorem Rises.length_le (h : Rises es) (hne : es ≠ [])
    (hw : ∀ e ∈ es, (es.getLast hne).height ≤ e.height + n) : es.length ≤ n + 1 := by
  cases es with
  | nil => exact absurd rfl hne
  | cons e es =>
    have hl := hw e List.mem_cons_self
    rw [h.getLast_height] at hl
    rw [List.length_cons]
    omega

theorem split_at_height {es : List RelayEntry} (h : es.Pairwise fun a b => a.height < b.height)
    (k : Nat) : ∃ low high, es = low ++ high ∧ es.filter (·.height < k) = low ∧
      ∀ e ∈ high, k ≤ e.height := by
  induction es with
  | nil => exact ⟨[], [], rfl, rfl, by simp⟩
  | cons e es ih =>
    rw [List.pairwise_cons] at h
    by_cases he : e.height < k
    · obtain ⟨low, high, hes, hlow, hhigh⟩ := ih h.2
      exact ⟨e :: low, high, by rw [hes, List.cons_append], by simp [he, hlow], hhigh⟩
    · have hall : ∀ x ∈ e :: es, k ≤ x.height := by
        intro x hx
        rcases List.mem_cons.mp hx with rfl | hx
        · omega
        · have := h.1 x hx
          omega
      refine ⟨[], e :: es, rfl, ?_, hall⟩
      rw [List.filter_eq_nil_iff]
      intro x hx
      simpa using hall x hx

theorem Rises.nodup (h : Rises es) : (es.map RelayEntry.height).Nodup :=
  List.pairwise_map.mpr (h.pairwise.imp Nat.ne_of_lt)

namespace Relay

/-- The relay's entries are exactly these. -/
def Holds (r : Relay) (es : List RelayEntry) : Prop := Keyed RelayEntry.height r.entries es

/-- The relay's hash index points at exactly these. -/
def Tags (r : Relay) (es : List RelayEntry) : Prop :=
  Tagged RelayEntry.height RelayEntry.hash r.heights es

theorem Holds.eq (h : Holds r es) (h' : Holds r' es) (ht : Tags r es) (ht' : Tags r' es) :
    r = r' := by
  cases r
  cases r'
  simp only [Relay.mk.injEq]
  exact ⟨Keyed.unique h h', Tagged.unique ht ht'⟩

theorem Holds.congr (h : Holds r es) (hm : ∀ e, e ∈ es ↔ e ∈ es') : Holds r es' :=
  Keyed.congr h hm

theorem Tags.congr (h : Tags r es) (hm : ∀ e, e ∈ es ↔ e ∈ es') : Tags r es' :=
  Tagged.congr h hm

section Remove

variable {r : Relay} {es sub : List RelayEntry}

theorem Holds.remove (h : Holds r es) :
    Holds (r.remove k).2 (es.filter (·.height ≠ k)) := by
  unfold Relay.remove
  cases hg : r.entries[k]? with
  | none =>
    refine Holds.congr h fun e => ?_
    simp only [List.mem_filter, decide_eq_true_eq]
    refine ⟨fun he => ⟨he, fun hk => ?_⟩, fun he => he.1⟩
    rw [← hk, Keyed.get h he] at hg
    exact absurd hg (by simp)
  | some e => exact Keyed.erase h

theorem Tags.remove (ht : Tags r es) (h : Holds r es) :
    Tags (r.remove k).2 (es.filter (·.height ≠ k)) := by
  unfold Relay.remove
  cases hg : r.entries[k]? with
  | none =>
    refine Tags.congr ht fun e => ?_
    simp only [List.mem_filter, decide_eq_true_eq]
    refine ⟨fun he => ⟨he, fun hk => ?_⟩, fun he => he.1⟩
    rw [← hk, Keyed.get h he] at hg
    exact absurd hg (by simp)
  | some e =>
    obtain ⟨he, rfl⟩ := (h k e).mp hg
    exact Tagged.erase ht he fun x hx hk => Keyed.inj h hx he hk

theorem filter_filter_cons :
    (es.filter (·.height ≠ k)).filter (·.height ∉ ks) = es.filter (·.height ∉ k :: ks) := by
  rw [List.filter_filter]
  congr 1
  funext e
  simp [Bool.and_comm]

theorem Holds.removeAll (h : Holds r es) (ks : List Nat) :
    Holds (r.removeAll ks).2 (es.filter (·.height ∉ ks)) := by
  induction ks generalizing r es with
  | nil => simpa [Relay.removeAll] using h
  | cons k ks ih =>
    rw [← filter_filter_cons]
    exact ih h.remove

theorem Tags.removeAll (ht : Tags r es) (h : Holds r es) (ks : List Nat) :
    Tags (r.removeAll ks).2 (es.filter (·.height ∉ ks)) := by
  induction ks generalizing r es with
  | nil => simpa [Relay.removeAll] using ht
  | cons k ks ih =>
    rw [← filter_filter_cons]
    exact ih (ht.remove h) h.remove

theorem Holds.removed (h : Holds r es) (hsub : ∀ e ∈ sub, e ∈ es)
    (hn : (sub.map RelayEntry.height).Nodup) :
    (r.removeAll (sub.map RelayEntry.height)).1 = sub := by
  induction sub generalizing r es with
  | nil => rfl
  | cons e sub ih =>
    rw [List.map_cons, List.nodup_cons] at hn
    have hget : r.entries[e.height]? = some e := Keyed.get h (hsub e List.mem_cons_self)
    have hfst : (r.remove e.height).1 = some e := by simp only [Relay.remove, hget]
    have hrest := ih (Holds.remove (k := e.height) h) (fun x hx => by
      simp only [List.mem_filter, decide_eq_true_eq]
      exact ⟨hsub x (List.mem_cons_of_mem _ hx), fun hk =>
        hn.1 (hk ▸ List.mem_map_of_mem hx)⟩) hn.2
    simp only [List.map_cons, Relay.removeAll, hfst, Option.toList_some, hrest,
      List.singleton_append]

end Remove

section Insert

variable {r : Relay} {es added : List RelayEntry}

theorem Holds.insertAll (h : Holds r es)
    (hn : ((es ++ added).map RelayEntry.height).Nodup) :
    Holds (r.insertAll added) (es ++ added) := by
  induction added generalizing r es with
  | nil => simpa [Relay.insertAll] using h
  | cons e added ih =>
    rw [List.append_cons] at hn ⊢
    refine ih (Keyed.insert h fun x hx => ?_) hn
    rw [List.map_append, List.map_append] at hn
    have hd := (List.nodup_append.mp (List.nodup_append.mp hn).1).2.2
    exact hd _ (List.mem_map_of_mem hx) _ (by simp)

theorem Tags.insertAll (ht : Tags r es) (hn : ((es ++ added).map RelayEntry.hash).Nodup) :
    Tags (r.insertAll added) (es ++ added) := by
  induction added generalizing r es with
  | nil => simpa [Relay.insertAll] using ht
  | cons e added ih =>
    rw [List.append_cons] at hn ⊢
    refine ih (Tagged.insert ht fun x hx => ?_) hn
    rw [List.map_append, List.map_append] at hn
    have hd := (List.nodup_append.mp (List.nodup_append.mp hn).1).2.2
    exact hd _ (List.mem_map_of_mem hx) _ (by simp)

end Insert

section Order

variable {r : Relay} {es : List RelayEntry}

theorem Holds.toList (h : Holds r es) (hr : Rises es) :
    r.entries.toList = es.map fun e => (e.height, e) :=
  Keyed.toList_eq h (hr.pairwise.imp fun hab => compare_lt_iff_lt.mpr hab)

theorem Holds.values (h : Holds r es) (hr : Rises es) : r.values = es := by
  rw [Relay.values, h.toList hr, List.map_map]
  exact List.map_id es

theorem Holds.keys (h : Holds r es) (hr : Rises es) :
    r.entries.keys = es.map RelayEntry.height := by
  rw [← Std.ExtTreeMap.map_fst_toList_eq_keys, h.toList hr, List.map_map]
  rfl

end Order

end Relay

theorem mem_filter_apart {part rest es : List RelayEntry}
    (hes : ∀ e, e ∈ es ↔ e ∈ part ∨ e ∈ rest)
    (hapart : ∀ x ∈ part, ∀ y ∈ rest, x.height ≠ y.height) :
    e ∈ es.filter (·.height ∉ part.map RelayEntry.height) ↔ e ∈ rest := by
  simp only [List.mem_filter, decide_eq_true_eq, List.mem_map, hes]
  constructor
  · rintro ⟨hp | hr, hn⟩
    · exact absurd ⟨e, hp, rfl⟩ hn
    · exact hr
  · intro hr
    exact ⟨.inr hr, fun ⟨x, hx, hh⟩ => hapart x hx e hr hh⟩

theorem Rises.range'_above (hr : Rises (base :: hi)) :
    List.range' (base.height + 1) hi.length = hi.map RelayEntry.height := by
  have hh := hr.heights
  rw [List.map_cons, List.range'_succ, List.cons.injEq] at hh
  exact hh.2.symm

section Window

variable [Primitives] {r : Relay} {base : RelayEntry} {lo hi added : List RelayEntry}

theorem Relay.Holds.tip (h : r.Holds es) (hr : Rises es) (hne : es ≠ []) :
    r.tip = es.getLast hne := by
  rw [Relay.tip, h.values hr, List.getLast?_eq_some_getLast hne, Option.getD_some]

theorem Relay.Holds.base_eq (h : r.Holds (base :: hi)) (hr : Rises (base :: hi)) :
    r.base = base := by
  rw [Relay.base, h.values hr, List.head?_cons, Option.getD_some]

theorem Relay.Holds.tip_height (h : r.Holds (lo ++ base :: hi))
    (hr : Rises (lo ++ base :: hi)) : r.tip.height = base.height + hi.length := by
  have hhi : Rises (base :: hi) := List.IsChain.right_of_append hr
  rw [h.tip hr (by simp), List.getLast_append_of_ne_nil _ (List.cons_ne_nil base hi),
    hhi.getLast_height]

theorem Relay.Holds.clearAbove (h : r.Holds (lo ++ base :: hi))
    (hr : Rises (lo ++ base :: hi)) :
    let cleared := r.removeAll
      (List.range' (base.height + 1) (r.tip.height - base.height))
    cleared.1 = hi ∧ cleared.2.Holds (lo ++ [base]) ∧
      (r.Tags (lo ++ base :: hi) → cleared.2.Tags (lo ++ [base])) := by
  have hhi : Rises (base :: hi) := List.IsChain.right_of_append hr
  rw [h.tip_height hr, Nat.add_sub_cancel_left, hhi.range'_above]
  have hsplit : ∀ e, e ∈ lo ++ base :: hi ↔ e ∈ hi ∨ e ∈ lo ++ [base] := by
    intro e
    simp only [List.mem_append, List.mem_cons, List.not_mem_nil, or_false]
    tauto
  have hapart : ∀ x ∈ hi, ∀ y ∈ lo ++ [base], x.height ≠ y.height := by
    intro x hx y hy
    have hp := hr.pairwise
    rw [List.append_cons, List.pairwise_append] at hp
    exact Nat.ne_of_gt (hp.2.2 y hy x hx)
  have hn : (hi.map RelayEntry.height).Nodup := (List.nodup_cons.mp hhi.nodup).2
  exact ⟨h.removed (fun e he => (hsplit e).mpr (.inl he)) hn,
    (h.removeAll _).congr fun e => mem_filter_apart hsplit hapart,
    fun ht => (ht.removeAll h _).congr fun e => mem_filter_apart hsplit hapart⟩

/-- Evicting what lies more than the window below the tip. -/
theorem Relay.Holds.evict (h : r.Holds (lo ++ base :: added))
    (hr : Rises (lo ++ base :: added)) (hlen : added.length ≤ relayWindow) :
    let evicted := r.removeAll (r.entries.keys.filter (· < r.tip.height - relayWindow))
    ∃ stale kept, lo = stale ++ kept ∧ evicted.1 = stale ∧
      evicted.2.Holds (kept ++ base :: added) ∧
      (kept ++ base :: added).length ≤ relayWindow + 1 ∧
      (r.Tags (lo ++ base :: added) → evicted.2.Tags (kept ++ base :: added)) := by
  have ha : Rises (base :: added) := List.IsChain.right_of_append hr
  rw [h.tip_height hr, h.keys hr]
  obtain ⟨keepFrom, hk⟩ : ∃ k, base.height + added.length - relayWindow = k := ⟨_, rfl⟩
  rw [hk]
  obtain ⟨stale, kept, hlo, hstale, hkept⟩ :=
    split_at_height (List.pairwise_append.mp hr.pairwise).1 keepFrom
  have hstay : ∀ e ∈ kept ++ base :: added, keepFrom ≤ e.height := by
    intro e he
    rcases List.mem_append.mp he with he | he
    · exact hkept e he
    · have hge : base.height ≤ e.height := by
        rcases List.mem_cons.mp he with rfl | he
        · exact Nat.le_refl _
        · exact ((List.pairwise_cons.mp ha.pairwise).1 e he).le
      omega
  have hheights : ((lo ++ base :: added).map RelayEntry.height).filter (· < keepFrom) =
      stale.map RelayEntry.height := by
    have hnone : (base :: added).filter (·.height < keepFrom) = [] := by
      rw [List.filter_eq_nil_iff]
      intro e he
      simpa using hstay e (List.mem_append_right _ he)
    rw [List.filter_map]
    refine congrArg _ ?_
    change (lo ++ base :: added).filter (·.height < keepFrom) = stale
    rw [List.filter_append, hnone, List.append_nil, hstale]
  rw [hheights]
  rw [hlo, List.append_assoc] at h hr
  have hsplit : ∀ e, e ∈ stale ++ (kept ++ base :: added) ↔
      e ∈ stale ∨ e ∈ kept ++ base :: added := fun e => List.mem_append
  have hapart : ∀ x ∈ stale, ∀ y ∈ kept ++ base :: added, x.height ≠ y.height :=
    fun x hx y hy => Nat.ne_of_lt ((List.pairwise_append.mp hr.pairwise).2.2 x hx y hy)
  have hn := hr.nodup
  rw [List.map_append] at hn
  refine ⟨stale, kept, hlo, ?_, ?_, ?_, ?_⟩
  · exact h.removed (fun e he => (hsplit e).mpr (.inl he)) (List.nodup_append.mp hn).1
  · exact (h.removeAll _).congr fun e => mem_filter_apart hsplit hapart
  · have hkr : Rises (kept ++ base :: added) := List.IsChain.right_of_append hr
    refine hkr.length_le (by simp) fun e he => ?_
    rw [List.getLast_append_of_ne_nil _ (List.cons_ne_nil base added), ha.getLast_height]
    have := hstay e he
    omega
  · intro ht
    rw [hlo, List.append_assoc] at ht
    exact (ht.removeAll h _).congr fun e => mem_filter_apart hsplit hapart

theorem Relay.Holds.replaceAbove (h : r.Holds (lo ++ base :: hi))
    (hr : Rises (lo ++ base :: hi)) (ha : Rises (base :: added))
    (hlen : added.length ≤ relayWindow) :
    ∃ stale kept, lo = stale ++ kept ∧
      (r.replaceAbove base added).1 =
        ⟨added, hi ++ stale, if hi.isEmpty then none else some base.height⟩ ∧
      (r.replaceAbove base added).2.Holds (kept ++ base :: added) ∧
      (kept ++ base :: added).length ≤ relayWindow + 1 ∧
      (r.Tags (lo ++ base :: hi) → ((lo ++ base :: added).map RelayEntry.hash).Nodup →
        (r.replaceAbove base added).2.Tags (kept ++ base :: added)) := by
  have hnew : Rises (lo ++ base :: added) :=
    List.isChain_split.mpr ⟨(List.isChain_split.mp hr).1, ha⟩
  obtain ⟨hremoved, hcleared, htcleared⟩ := h.clearAbove hr
  rw [List.append_cons] at hnew ⊢
  have hadded := hcleared.insertAll hnew.nodup
  rw [← List.append_cons] at hnew hadded ⊢
  obtain ⟨stale, kept, hlo, hevicted, hkept, hwindow, htkept⟩ := hadded.evict hnew hlen
  refine ⟨stale, kept, hlo, ?_, hkept, hwindow, fun ht hn => htkept ?_⟩
  · simp only [Relay.replaceAbove, hremoved, hevicted]
  · rw [List.append_cons] at hn ⊢
    exact (htcleared ht).insertAll hn

end Window

end Midwimble
