import AbsoluteChain.Mempool

/-!
# Who is evicted

A full pool makes room by dropping the cheapest tenth. The sort is stable, so of two
transactions with one fee the older one goes first.
-/

namespace Python

/-! ## Stable sorting -/

section sorting
variable {α κ : Type} [LinearOrder κ] {key : α → κ} {a : α} {xs ys : List α}

section insert
variable {r : α → α → Prop} [DecidableRel r]

theorem orderedInsert_left (h : ∀ y ∈ ys, r a y) : (xs ++ ys).orderedInsert r a = xs.orderedInsert r a ++ ys := by
  induction xs with
  | nil =>
    cases ys with
    | nil => rfl
    | cons y ys => exact List.orderedInsert_cons_of_le r ys (h y List.mem_cons_self)
  | cons x xs ih =>
    by_cases hx : r a x
    · rw [List.cons_append, List.orderedInsert_cons_of_le r _ hx, List.orderedInsert_cons_of_le r _ hx]
      rfl
    · rw [List.cons_append, List.orderedInsert_of_not_le r _ hx, List.orderedInsert_of_not_le r _ hx, ih]
      rfl

theorem orderedInsert_right (h : ∀ x ∈ xs, ¬ r a x) : (xs ++ ys).orderedInsert r a = xs ++ ys.orderedInsert r a := by
  induction xs with
  | nil => rfl
  | cons x xs ih =>
    rw [List.cons_append, List.orderedInsert_of_not_le r _ (h x List.mem_cons_self),
      ih fun y hy => h y (List.mem_cons_of_mem _ hy)]
    rfl

end insert

theorem mem_sortedBy {l : List α} : a ∈ sortedBy key l ↔ a ∈ l := (List.perm_insertionSort _ l).mem_iff

theorem sortedBy_parts (c : κ) (l : List α) : sortedBy key l =
    sortedBy key (l.filter fun x => decide (key x < c)) ++
      (l.filter (fun x => decide (key x = c)) ++ sortedBy key (l.filter fun x => decide (c < key x))) := by
  induction l with
  | nil => rfl
  | cons b l ih =>
    have hsort : sortedBy key (b :: l) = (sortedBy key l).orderedInsert (fun a b => key a ≤ key b) b := rfl
    rw [hsort, ih]
    rcases lt_trichotomy (key b) c with hb | hb | hb
    · have hne : ¬ key b = c := hb.ne
      have hle : ¬ c < key b := not_lt.mpr hb.le
      rw [List.filter_cons_of_pos (by simpa using hb), List.filter_cons_of_neg (by simpa using hne),
        List.filter_cons_of_neg (by simpa using hle), orderedInsert_left]
      · rfl
      · intro y hy
        rcases List.mem_append.mp hy with hy | hy
        · have heq := of_decide_eq_true (List.mem_filter.mp hy).2
          exact heq ▸ hb.le
        · have hlt := of_decide_eq_true (List.mem_filter.mp (mem_sortedBy.mp hy)).2
          exact (hb.trans hlt).le
    · have hlt : ¬ key b < c := not_lt.mpr hb.ge
      have hgt : ¬ c < key b := not_lt.mpr hb.le
      rw [List.filter_cons_of_neg (by simpa using hlt), List.filter_cons_of_pos (by simpa using hb),
        List.filter_cons_of_neg (by simpa using hgt), orderedInsert_right, List.cons_append]
      · congr 1
        cases hrest : l.filter (fun x => decide (key x = c)) ++ sortedBy key (l.filter fun x => decide (c < key x)) with
        | nil => rfl
        | cons y rest =>
          refine List.orderedInsert_cons_of_le (fun a b => key a ≤ key b) rest ?_
          have hy : y ∈ l.filter (fun x => decide (key x = c)) ++ sortedBy key (l.filter fun x => decide (c < key x)) :=
            hrest ▸ List.mem_cons_self
          rcases List.mem_append.mp hy with hy | hy
          · have heq := of_decide_eq_true (List.mem_filter.mp hy).2
            exact (hb.trans heq.symm).le
          · have hlt := of_decide_eq_true (List.mem_filter.mp (mem_sortedBy.mp hy)).2
            exact hb ▸ hlt.le
      · intro x hx
        have hlt := of_decide_eq_true (List.mem_filter.mp (mem_sortedBy.mp hx)).2
        exact not_le.mpr (hb ▸ hlt)
    · have hlt : ¬ key b < c := not_lt.mpr hb.le
      have hne : ¬ key b = c := hb.ne'
      rw [List.filter_cons_of_neg (by simpa using hlt), List.filter_cons_of_neg (by simpa using hne),
        List.filter_cons_of_pos (by simpa using hb), orderedInsert_right, orderedInsert_right]
      · rfl
      · intro x hx
        have heq := of_decide_eq_true (List.mem_filter.mp hx).2
        exact not_le.mpr (heq ▸ hb)
      · intro x hx
        have hlt := of_decide_eq_true (List.mem_filter.mp (mem_sortedBy.mp hx)).2
        exact not_le.mpr (hlt.trans hb)

/-- Before an item stand those with a smaller key and those with the same key that stood before it. -/
theorem sortedBy_place (u v : List α) (x : α) : ∃ s t, sortedBy key (u ++ x :: v) = s ++ x :: t ∧
    s.length = (u ++ x :: v).countP (fun y => decide (key y < key x)) + u.countP fun y => decide (key y = key x) := by
  refine ⟨sortedBy key ((u ++ x :: v).filter fun y => decide (key y < key x)) ++
      u.filter (fun y => decide (key y = key x)),
    v.filter (fun y => decide (key y = key x)) ++
      sortedBy key ((u ++ x :: v).filter fun y => decide (key x < key y)), ?_, ?_⟩
  · rw [sortedBy_parts (key x) (u ++ x :: v), List.filter_append (p := fun y => decide (key y = key x)),
      List.filter_cons_of_pos (by simp)]
    simp only [List.append_assoc, List.cons_append]
  · rw [List.length_append, ← List.countP_eq_length_filter, List.countP_eq_length_filter (l := u ++ x :: v)]
    congr 1
    exact (List.perm_insertionSort _ _).length_eq

end sorting

end Python

namespace AbsoluteChain.Mempool

open Python Runs

/-! ## The cheapest tenth -/

/-- How many go before the transaction: those that are cheaper, and the older ones that pay the same. -/
def ahead (p : Mempool) (t : MempoolTransaction) : Nat :=
  p.transactions.countP (fun e => decide (e.2.fee < t.fee)) +
    (p.transactions.takeWhile fun e => decide (e.1 ≠ t.txHash)).countP fun e => decide (e.2.fee = t.fee)

variable {p : Mempool} {t : MempoolTransaction} {host : Host}

theorem mem_erase_all {e : String × MempoolTransaction} (keys : List String) : ∀ d : Dict String MempoolTransaction,
    e ∈ keys.foldl Dict.erase d ↔ e ∈ d ∧ e.1 ∉ keys := by
  induction keys with
  | nil => exact fun d => by simp
  | cons k keys ih =>
    intro d
    rw [List.foldl_cons, ih, List.mem_cons, not_or]
    unfold Dict.erase
    rw [List.mem_filter]
    constructor
    · rintro ⟨⟨he, hk⟩, hkeys⟩
      exact ⟨he, of_decide_eq_true hk, hkeys⟩
    · rintro ⟨he, hk, hkeys⟩
      exact ⟨⟨he, decide_eq_true hk⟩, hkeys⟩

theorem takeWhile_other {u v : Dict String MempoolTransaction} {x : MempoolTransaction}
    (hd : Dict.Keyed (u ++ (t.txHash, x) :: v)) :
    (u ++ (t.txHash, x) :: v).takeWhile (fun e => decide (e.1 ≠ t.txHash)) = u := by
  have hu : ∀ e ∈ u, decide (e.1 ≠ t.txHash) = true := by
    intro e he
    refine decide_eq_true fun heq => ?_
    unfold Dict.Keyed at hd
    rw [List.map_append, List.nodup_append] at hd
    exact hd.2.2 e.1 (List.mem_map_of_mem he) t.txHash List.mem_cons_self heq
  rw [List.takeWhile_append_of_pos hu, List.takeWhile_cons_of_neg (by simp), List.append_nil]

/-- A transaction stays in a full pool exactly when a tenth of the pool goes before it. -/
theorem mem_cleanup (h : p.Filed) (hfull : p.maxSize ≤ p.transactions.length)
    (ht : (t.txHash, t) ∈ p.transactions) :
    (t.txHash, t) ∈ p.cleanup.transactions ↔ p.transactions.length / 10 ≤ p.ahead t := by
  obtain ⟨u, v, huv⟩ := List.append_of_mem ht
  have hvalues : p.transactions.map Prod.snd = u.map Prod.snd ++ t :: v.map Prod.snd := by
    rw [huv, List.map_append, List.map_cons]
  obtain ⟨l, r, hsorted, hplace⟩ :=
    @sortedBy_place _ _ _ MempoolTransaction.fee (u.map Prod.snd) (v.map Prod.snd) t
  have hahead : l.length = p.ahead t := by
    have hkeyed := h.keyed
    unfold ahead
    rw [huv] at hkeyed ⊢
    rw [hplace, takeWhile_other hkeyed, ← List.map_cons (f := Prod.snd) (a := (t.txHash, t)), ← List.map_append,
      List.countP_map, List.countP_map]
    rfl
  have hhashes : ((l ++ t :: r).map MempoolTransaction.txHash).Nodup := by
    have hperm : (l ++ t :: r).Perm (p.transactions.map Prod.snd) := by
      rw [← hsorted, ← hvalues]
      exact Miner.sortedBy_perm _ _
    have hown : (p.transactions.map Prod.snd).map MempoolTransaction.txHash = p.transactions.map Prod.fst := by
      rw [List.map_map]
      exact List.map_congr_left h.own
    exact (hown ▸ hperm.map MempoolTransaction.txHash).nodup_iff.mpr h.keyed
  have hcleanup : p.cleanup.transactions =
      (((l ++ t :: r).take (p.transactions.length / 10)).map MempoolTransaction.txHash).foldl Dict.erase p.transactions := by
    unfold cleanup
    rw [if_neg (by omega), List.foldl_map, hvalues, hsorted]
  rw [hcleanup, mem_erase_all, ← hahead, and_iff_right ht, ← not_lt, not_iff_not]
  rw [List.map_append, List.map_cons, List.nodup_append] at hhashes
  constructor
  · intro hin
    by_contra hlt
    rw [List.take_append_of_le_length (not_lt.mp hlt)] at hin
    obtain ⟨x, hx, heq⟩ := List.mem_map.mp hin
    exact hhashes.2.2 x.txHash (List.mem_map_of_mem (List.mem_of_mem_take hx)) t.txHash List.mem_cons_self heq
  · intro hlt
    refine List.mem_map_of_mem (f := MempoolTransaction.txHash) ?_
    obtain ⟨k, hk⟩ := Nat.exists_eq_add_of_lt hlt
    rw [hk, Nat.add_assoc, List.take_length_add_append]
    exact List.mem_append_right _ List.mem_cons_self

/-! ## Runs -/

/-- The call leaves the transaction alone: it does not remove it, and what it takes into a full pool finds a tenth of the
pool to go before it. -/
def Spares (host : Host) (t : MempoolTransaction) : Call → Mempool → Prop
  | .add tables tx, p => p.Admits host tables tx → p.maxSize ≤ p.transactions.length → p.transactions.length / 10 ≤ p.ahead t
  | .addRaw tx, p => p.AdmitsRaw tx → p.maxSize ≤ p.transactions.length → p.transactions.length / 10 ≤ p.ahead t
  | .remove txHash, _ => txHash ≠ t.txHash

theorem mem_store {tx : MempoolTransaction} (h : p.Filed) (hnew : p.transactions.contains tx.txHash = false)
    (ht : (t.txHash, t) ∈ p.transactions) : (t.txHash, t) ∈ (p.store tx).transactions ↔
      (p.maxSize ≤ p.transactions.length → p.transactions.length / 10 ≤ p.ahead t) := by
  have hother : (t.txHash, t) ≠ (tx.txHash, tx) := by
    intro heq
    have hget := h.keyed.get?_of_mem (heq ▸ ht)
    unfold Dict.contains at hnew
    rw [hget] at hnew
    cases hnew
  rw [store_eq h hnew, List.mem_append, List.mem_singleton, or_iff_left hother]
  unfold survivors
  by_cases hfull : p.maxSize ≤ p.transactions.length
  · rw [if_pos hfull, mem_cleanup h hfull ht]
    exact ⟨fun hle _ => hle, fun hle => hle hfull⟩
  · rw [if_neg hfull]
    exact iff_of_true ht fun hle => absurd hle hfull

theorem mem_step (e : Call) (h : p.Filed) (ht : (t.txHash, t) ∈ p.transactions) :
    (t.txHash, t) ∈ (step host e p).transactions ↔ Spares host t e p := by
  cases e with
  | add tables tx =>
    by_cases ha : p.Admits host tables tx
    · rw [step, add_admitted ha, mem_store h ha.1 ht]
      exact ⟨fun hle _ => hle, fun hle => hle ha⟩
    · obtain ⟨n, hn⟩ := add_refused ha
      rw [step, hn]
      exact iff_of_true ht fun h => absurd h ha
  | addRaw tx =>
    by_cases ha : p.AdmitsRaw tx
    · rw [step, addRaw_admitted ha, mem_store h ha.1 ht]
      exact ⟨fun hle _ => hle, fun hle => hle ha⟩
    · rw [step, addRaw_refused ha]
      exact iff_of_true ht fun h => absurd h ha
  | remove txHash =>
    have herase : (step host (.remove txHash) p).transactions = p.transactions.erase txHash := rfl
    rw [herase]
    unfold Dict.erase Spares
    rw [List.mem_filter, decide_eq_true_eq]
    exact ⟨fun hmem => hmem.2.symm, fun hne => ⟨ht, hne.symm⟩⟩

/-- A pooled transaction stays, through every run of calls, exactly as long as none removes it and each time the full pool
takes another one, a tenth of the pool is cheaper than it, or pays the same and is older. -/
theorem stays_iff_spared (host : Host) (maxSize : Nat) (minFee : ℚ) (chain : Option Blockchain) {past : List Call}
    (ht : (t.txHash, t) ∈ (run (step host) past (opened maxSize minFee chain)).transactions) (calls : List Call) :
    Always (step host) (fun p => (t.txHash, t) ∈ p.transactions) calls (run (step host) past (opened maxSize minFee chain)) ↔
      Along (step host) (Spares host t) calls (run (step host) past (opened maxSize minFee chain)) := by
  have hopened : (opened maxSize minFee chain).Filed := by
    constructor
    · rw [opened_empty]
      exact List.nodup_nil
    · rw [opened_empty]
      exact fun e he => absurd he List.not_mem_nil
  have hfiled : (run (step host) past (opened maxSize minFee chain)).Filed :=
    run_inv (fun e _ h => filed_step e h) past hopened
  exact always_iff_along_of (I := fun p => p.Filed ∧ (t.txHash, t) ∈ p.transactions) (fun _ h => h.2)
    (fun e p h hs => ⟨filed_step e h.1, (mem_step e h.1 h.2).mpr hs⟩) (fun e p h hmem => (mem_step e h.1 h.2).mp hmem)
    ⟨hfiled, ht⟩

def cheap : List Call := (List.range 10).map fun n => .addRaw { unsigned (toString n) with fee := n }

/-- The dearest of them outlasts the next two. -/
theorem stays_iff_spared_dearest :
    Always (step Host.plain) (fun p => ("9", { unsigned "9" with fee := 9 }) ∈ p.transactions)
      [.addRaw { unsigned "a" with fee := 20 }, .addRaw { unsigned "b" with fee := 20 }]
      (run (step Host.plain) cheap (opened 10 0 none)) ↔
    Along (step Host.plain) (Spares Host.plain { unsigned "9" with fee := 9 })
      [.addRaw { unsigned "a" with fee := 20 }, .addRaw { unsigned "b" with fee := 20 }]
      (run (step Host.plain) cheap (opened 10 0 none)) :=
  stays_iff_spared Host.plain 10 0 none (t := { unsigned "9" with fee := 9 }) (by decide +kernel) _

end AbsoluteChain.Mempool
