import AbsoluteChain.Forks
import AbsoluteChain.Merkle
import AbsoluteChain.Runs

/-!
# The light client

`light/light_client.py` keeps one header for each height and never replaces it. Its
proofs take the JSON text of a transaction as the leaf, while the root of a block is
made of the hashes of its transactions.
-/

namespace AbsoluteChain

open Python JsonText Actions Actions.Act Transactions KeyedTable HashTree Runs

/-! ## Headers -/

structure BlockHeader where
  number : Int
  parentHash : String
  proposer : String
  stateRoot : String
  txRoot : String
  timestamp : Int
  extraData : String
  blockHash : String
  deriving DecidableEq

def BlockHeader.hash (h : BlockHeader) : String :=
  if h.blockHash ≠ "" then h.blockHash
  else sha256Hex (encode (strInt h.number ++ h.parentHash ++ h.proposer ++ h.stateRoot ++ h.txRoot ++
    strInt h.timestamp ++ h.extraData))

def BlockDict.rootItems (d : BlockDict) : List String :=
  if d.transactions = [] then ["empty"] else d.transactions.map TxDict.hash

def BlockHeader.fromBlockDict (now : Int) (d : BlockDict) : BlockHeader :=
  { number := d.height, parentHash := d.parentHash, proposer := d.miner, stateRoot := d.stateRoot,
    txRoot := orElse d.txRoot (merkleRoot d.rootItems), timestamp := if d.timestamp = 0 then now else d.timestamp,
    extraData := d.extraData, blockHash := d.hash }

/-! ## The client -/

structure LightClient where
  headers : List BlockHeader
  headerByHash : Dict String BlockHeader
  headerByNumber : Dict Int BlockHeader

/-- A dictionary as the API hands it over. -/
abbrev JsonDict := Fields ℚ

inductive SpvResult where
  | failed (error : String)
  | checked (valid : Bool) (block : Int) (txRoot headerHash : String) (proof : List String) (index : ℕ)

def SpvResult.valid : SpvResult → Bool
  | .failed _ => false
  | .checked valid _ _ _ _ _ => valid

namespace LightClient

def empty : LightClient := { headers := [], headerByHash := [], headerByNumber := [] }

variable (lc : LightClient)

def addHeader (h : BlockHeader) : Bool × LightClient :=
  if lc.headerByNumber.contains h.number then (false, lc)
  else
    (true,
      { headers := lc.headers ++ [h], headerByHash := lc.headerByHash.set h.hash h,
        headerByNumber := lc.headerByNumber.set h.number h })

def syncHeight (now : Int) (t : Tables) (r : ℕ × LightClient) (n : ℕ) : ℕ × LightClient :=
  match t.getBlock n with
  | none => r
  | some d =>
    let a := r.2.addHeader (.fromBlockDict now d)
    (if a.1 then r.1 + 1 else r.1, a.2)

def syncFromBlockchain (now : Int) (t : Tables) : ℕ × LightClient :=
  (List.range (t.getChainTip + 1).toNat).foldl (syncHeight now t) (0, lc)

def getHeader (number : Int) : Option BlockHeader := lc.headerByNumber.get? number

def leafText (host : Host) (tx : JsonDict) : String := dumps (spaced escapeAscii host.floatRepr) (.obj tx)

def verifyTransactionInBlock (host : Host) (blockNumber : Int) (tx : JsonDict) (transactions : List JsonDict) : SpvResult :=
  match lc.getHeader blockNumber with
  | none => .failed "header_not_found"
  | some header =>
    let txStrings := transactions.map (leafText host)
    let targetStr := leafText host tx
    if targetStr ∈ txStrings then
      let index := txStrings.idxOf targetStr
      let proof := generateProof txStrings index
      .checked (verifyProof targetStr proof header.txRoot index) blockNumber header.txRoot header.hash proof index
    else .failed "tx_not_in_block"

/-! ## What a sync stores -/

section
variable {lc} {now : Int} {t : Tables}

theorem getHeader_addHeader (h : BlockHeader) (n : Int) : (lc.addHeader h).2.getHeader n =
    (lc.getHeader n).or (if n = h.number then some h else none) := by
  unfold addHeader getHeader Dict.contains
  cases hget : lc.headerByNumber.get? h.number with
  | some old =>
    simp only [Option.isSome_some, if_true]
    by_cases hn : n = h.number
    · rw [hn, hget]
      rfl
    · rw [if_neg hn, Option.or_none]
  | none =>
    simp only [Option.isSome_none, Bool.false_eq_true, if_false]
    rw [Dict.get?_set]
    by_cases hn : n = h.number
    · rw [if_pos hn, if_pos hn, hn, hget]
      rfl
    · rw [if_neg hn, if_neg hn, Option.or_none]

theorem getHeader_heights (hkeyed : ∀ k d, t.getBlock k = some d → d.height = k) (m : ℕ) (added : ℕ) (n : Int) :
    ((List.range m).foldl (syncHeight now t) (added, lc)).2.getHeader n =
      (lc.getHeader n).or (if 0 ≤ n ∧ n < m then (t.getBlock n).map (.fromBlockDict now) else none) := by
  induction m with
  | zero =>
    rw [if_neg (by omega), Option.or_none]
    rfl
  | succ m ih =>
    rw [List.range_succ, List.foldl_append]
    show (syncHeight now t _ m).2.getHeader n = _
    generalize (List.range m).foldl (syncHeight now t) (added, lc) = r at ih ⊢
    unfold syncHeight
    cases hd : t.getBlock m with
    | none =>
      dsimp only
      rw [ih]
      by_cases hn : n = m
      · rw [hn, hd, if_neg (by omega)]
        split <;> rfl
      · have hiff : (0 ≤ n ∧ n < (m : ℤ)) ↔ (0 ≤ n ∧ n < ((m + 1 : ℕ) : ℤ)) := by omega
        simp only [hiff]
    | some d =>
      dsimp only
      rw [getHeader_addHeader, ih, Option.or_assoc]
      have hheight : d.height = m := hkeyed m d hd
      congr 1
      by_cases hn : n = m
      · have hnumber : n = (BlockHeader.fromBlockDict now d).number := hn.trans hheight.symm
        rw [if_neg (by omega), Option.none_or, if_pos hnumber, if_pos (by omega), hn, hd]
        rfl
      · have hiff : (0 ≤ n ∧ n < (m : ℤ)) ↔ (0 ≤ n ∧ n < ((m + 1 : ℕ) : ℤ)) := by omega
        have hne : n ≠ (BlockHeader.fromBlockDict now d).number := fun h => hn (h.trans hheight)
        rw [if_neg hne, Option.or_none]
        simp only [hiff]

/-- A header on record stays, the others are those of the stored blocks. -/
theorem getHeader_sync (hkeyed : ∀ k d, t.getBlock k = some d → d.height = k) (n : Int) :
    (lc.syncFromBlockchain now t).2.getHeader n =
      (lc.getHeader n).or (if 0 ≤ n ∧ n ≤ t.getChainTip then (t.getBlock n).map (.fromBlockDict now) else none) := by
  unfold syncFromBlockchain
  rw [getHeader_heights hkeyed]
  have hiff : (0 ≤ n ∧ n < ((t.getChainTip + 1).toNat : ℤ)) ↔ (0 ≤ n ∧ n ≤ t.getChainTip) := by omega
  simp only [hiff]

end

/-! ## Following the chain -/

/-- Up to the tip the headers are those of the stored blocks, none lies above it, and each names the
one before it as its parent. -/
structure Follows (t : Tables) (lc : LightClient) : Prop where
  current : ∀ n, 0 ≤ n → n ≤ t.getChainTip → ∃ d h, t.getBlock n = some d ∧ lc.getHeader n = some h ∧ h.hash = d.hash
  below : ∀ n h, lc.getHeader n = some h → n ≤ t.getChainTip
  parents : ∀ n h h', 0 ≤ n → lc.getHeader n = some h → lc.getHeader (n + 1) = some h' → h'.parentHash = h.hash

/-- Every header on record is that of the block stored at its height now. -/
def UpToDate (t : Tables) (lc : LightClient) : Prop :=
  ∀ n h, 0 ≤ n → lc.getHeader n = some h →
    ∃ d, t.getBlock n = some d ∧ h.hash = d.hash ∧ (0 < n → h.parentHash = d.parentHash)

def Chained (t : Tables) : Prop := Linked t ∧ ∀ n d, t.getBlock n = some d → d.hash ≠ ""

theorem hash_fromBlockDict {d : BlockDict} (h : d.hash ≠ "") (now : Int) : (BlockHeader.fromBlockDict now d).hash = d.hash :=
  if_pos h

theorem follows_of_upToDate {t : Tables} {now : Int} (hc : Chained t) (hu : UpToDate t lc) :
    Follows t (lc.syncFromBlockchain now t).2 := by
  obtain ⟨hl, hhash⟩ := hc
  have hget := @getHeader_sync lc now t (fun k d hd => hl.keyed hd)
  have hheader : ∀ n h, 0 ≤ n → (lc.syncFromBlockchain now t).2.getHeader n = some h →
      ∃ d, t.getBlock n = some d ∧ h.hash = d.hash ∧ (0 < n → h.parentHash = d.parentHash) := by
    intro n h hn hh
    rw [hget] at hh
    cases hold : lc.getHeader n with
    | some old =>
      rw [hold] at hh
      obtain rfl := Option.some.inj hh
      exact hu n old hn hold
    | none =>
      rw [hold, Option.none_or] at hh
      by_cases hin : 0 ≤ n ∧ n ≤ t.getChainTip
      · rw [if_pos hin] at hh
        obtain ⟨d, hd, rfl⟩ := Option.map_eq_some_iff.mp hh
        exact ⟨d, hd, hash_fromBlockDict (hhash n d hd) now, fun _ => rfl⟩
      · rw [if_neg hin] at hh
        cases hh
  refine { current := ?_, below := ?_, parents := ?_ }
  · intro n hn htip
    obtain ⟨d, hd⟩ := hl.exists_block hn htip
    have hsome : ∃ h, (lc.syncFromBlockchain now t).2.getHeader n = some h := by
      rw [hget, if_pos ⟨hn, htip⟩, hd]
      cases lc.getHeader n with
      | none => exact ⟨_, rfl⟩
      | some old => exact ⟨old, rfl⟩
    obtain ⟨h, hh⟩ := hsome
    obtain ⟨d', hd', heq, -⟩ := hheader n h hn hh
    obtain rfl := Option.some.inj (hd.symm.trans hd')
    exact ⟨d, h, hd, hh, heq⟩
  · intro n h hh
    by_cases hn : 0 ≤ n
    · obtain ⟨d, hd, -⟩ := hheader n h hn hh
      exact ((hl.heights n).mp (by rw [hd]; rfl)).2
    · have := hl.tip_nonneg
      omega
  · intro n h h' hn hh hh'
    obtain ⟨d, hd, heq, -⟩ := hheader n h hn hh
    obtain ⟨d', hd', -, hparent⟩ := hheader (n + 1) h' (by omega) hh'
    rw [hparent (by omega), hl.parents hd' hd, heq]

theorem upToDate_of_follows {t : Tables} {now : Int} (hc : Chained t) (hf : Follows t (lc.syncFromBlockchain now t).2) :
    UpToDate t lc := by
  obtain ⟨hl, -⟩ := hc
  have hget := @getHeader_sync lc now t (fun k d hd => hl.keyed hd)
  intro n h hn hh
  have hkept : (lc.syncFromBlockchain now t).2.getHeader n = some h := by
    rw [hget, hh]
    rfl
  have htip := hf.below n h hkept
  obtain ⟨d, h₁, hd, hh₁, heq⟩ := hf.current n hn htip
  obtain rfl := Option.some.inj (hkept.symm.trans hh₁)
  refine ⟨d, hd, heq, fun hpos => ?_⟩
  obtain ⟨p, g, hp, hg, hpg⟩ := hf.current (n - 1) (by omega) (by omega)
  have hnext : n - 1 + 1 = n := by omega
  rw [hf.parents (n - 1) g h (by omega) hg (by rw [hnext]; exact hkept), hpg]
  exact (hl.parents (by rw [hnext]; exact hd) hp).symm

end LightClient

/-! ## Histories -/

structure LightNode where
  node : Node
  client : LightClient

inductive LightEvent where
  | chain (call : Blockchain.Call)
  | mine (now : Int) (b : Block)
  | sync (now : Int)

namespace LightNode

open LightClient

def mine (c : Blockchain) (now : Int) (b : Block) (s : LightNode) : LightNode :=
  match c.addBlock now b false s.node with
  | (.ok b', n) => { node := n, client := (s.client.addHeader (.fromBlockDict now b'.toDict)).2 }
  | (.error _, n) => { s with node := n }

def step (c : Blockchain) : LightEvent → LightNode → LightNode
  | .chain call, s => { s with node := call.run c s.node }
  | .mine now b, s => s.mine c now b
  | .sync now, s => { s with client := (s.client.syncFromBlockchain now s.node.db.live).2 }

def AtSync (P : LightNode → Prop) : LightEvent → LightNode → Prop
  | .sync _, s => P s
  | _, _ => True

def Synced (c : Blockchain) (e : LightEvent) (s : LightNode) : Prop :=
  AtSync (fun s => Follows s.node.db.live (step c e s).client) e s

/-- On a chain that is linked whenever the client syncs, the client follows it exactly when at each sync
every header on record is still that of the block stored at its height. -/
theorem light_client_follows {c : Blockchain} {events : List LightEvent} {s : LightNode}
    (h : Along (step c) (AtSync fun s => Chained s.node.db.live) events s) :
    Along (step c) (Synced c) events s ↔ Along (step c) (AtSync fun s => UpToDate s.node.db.live s.client) events s := by
  induction events generalizing s with
  | nil => exact Iff.rfl
  | cons e rest ih =>
    refine and_congr ?_ (ih h.2)
    cases e with
    | chain call => exact Iff.rfl
    | mine now b => exact Iff.rfl
    | sync now => exact ⟨upToDate_of_follows s.client h.1, follows_of_upToDate s.client h.1⟩

def fresh (n : Node) : LightNode := { node := n, client := .empty }

section forked
open Blockchain

theorem chained_freshNode : Chained (freshNode true).db.live := by
  refine ⟨freshNode_genesis.1, fun n d hd => ?_⟩
  exact freshNode_fresh (by decide) n d hd

theorem chained_extends {n n' : Node} {hash : String} (hc : Chained n.db.live) (h : Extends n n' hash) (hne : hash ≠ "") :
    Chained n'.db.live := by
  obtain ⟨hl, hhash⟩ := hc
  refine ⟨h.linked, fun k d hd => ?_⟩
  have hle := (h.linked.heights k).mp (by rw [hd]; rfl)
  by_cases hk : k ≤ n.db.live.getChainTip
  · obtain ⟨e, he⟩ := hl.exists_block hle.1 hk
    rw [h.kept k e he] at hd
    exact Option.some.inj hd ▸ hhash k e he
  · obtain ⟨e, he, heq⟩ := h.top
    have hk' : k = n.db.live.getChainTip + 1 := by
      rw [h.tip] at hle
      omega
    rw [hk', he] at hd
    rw [← Option.some.inj hd, heq]
    exact hne

theorem step_chain {c : Blockchain} {call : Call} {n n' : Node} {client : LightClient} (h : call.run c n = n') :
    step c (.chain call) ⟨n, client⟩ = ⟨n', client⟩ := congrArg (LightNode.mk · client) h

def unseen : List LightEvent :=
  [.chain firstCall, .sync 2, .chain (secondCall "x"), .chain rollback, .chain (secondCall "y"), .sync 3]

theorem light_client_follows_unseen : Along (step .plain) (Synced .plain) unseen (fresh (freshNode true)) := by
  obtain ⟨n₁, n₂, n₃, n₄, f⟩ := forked
  have hchained₁ : Chained n₁.db.live := chained_extends chained_freshNode f.begun (by decide)
  have hchained₃ : Chained n₃.db.live := ⟨f.back.1, fun n d hd => hchained₁.2 n d ((f.back.2.2 n).symm.trans hd)⟩
  have hchained₄ : Chained n₄.db.live := chained_extends hchained₃ f.other (by decide)
  have hfirst : step .plain (.chain firstCall) (fresh (freshNode true)) = ⟨n₁, .empty⟩ := step_chain f.first
  generalize hclient : (LightClient.empty.syncFromBlockchain 2 n₁.db.live).2 = client
  have hsecond : step .plain (.sync 2) ⟨n₁, .empty⟩ = ⟨n₁, client⟩ := hclient ▸ rfl
  have hlast : step .plain (.chain (secondCall "y")) (step .plain (.chain rollback)
      (step .plain (.chain (secondCall "x")) ⟨n₁, client⟩)) = ⟨n₄, client⟩ := by
    rw [step_chain f.second, step_chain f.rolled, step_chain f.replaced]
  have hup : UpToDate n₄.db.live client := by
    intro n h hn hh
    rw [← hclient, getHeader_sync fun k d hd => hchained₁.1.keyed hd] at hh
    by_cases hin : 0 ≤ n ∧ n ≤ n₁.db.live.getChainTip
    · rw [if_pos hin] at hh
      obtain ⟨d, hd, rfl⟩ := Option.map_eq_some_iff.mp hh
      have hkept := f.other.kept n d ((f.back.2.2 n).trans hd)
      exact ⟨d, hkept, hash_fromBlockDict (hchained₁.2 n d hd) 2, fun _ => rfl⟩
    · rw [if_neg hin] at hh
      cases hh
  have hempty : UpToDate n₁.db.live .empty := by
    intro n h _ hh
    cases hh
  have hchained : Along (step .plain) (AtSync fun s => Chained s.node.db.live) unseen (fresh (freshNode true)) := by
    refine ⟨trivial, ?_, trivial, trivial, trivial, ?_, trivial⟩
    · rw [hfirst]
      exact hchained₁
    · rw [hfirst, hsecond, hlast]
      exact hchained₄
  refine (light_client_follows hchained).mpr ⟨trivial, ?_, trivial, trivial, trivial, ?_, trivial⟩
  · rw [hfirst]
    exact hempty
  · rw [hfirst, hsecond, hlast]
    exact hup

def replaced : List LightEvent :=
  [.chain firstCall, .chain (secondCall "x"), .sync 2, .chain rollback, .chain (secondCall "y"), .sync 3]

/-- The client keeps the header of the block that was rolled back. -/
theorem client_misses_reorg :
    ((run (step .plain) replaced (fresh (freshNode true))).node.db.live.getBlock 2).map BlockDict.hash = some "y" ∧
    ((run (step .plain) replaced (fresh (freshNode true))).client.getHeader 2).map BlockHeader.hash = some "x" ∧
    ¬ Follows (run (step .plain) replaced (fresh (freshNode true))).node.db.live
      (run (step .plain) replaced (fresh (freshNode true))).client := by
  obtain ⟨n₁, n₂, n₃, n₄, f⟩ := forked
  have hchained₁ : Chained n₁.db.live := chained_extends chained_freshNode f.begun (by decide)
  have hchained₃ : Chained n₃.db.live := ⟨f.back.1, fun n d hd => hchained₁.2 n d ((f.back.2.2 n).symm.trans hd)⟩
  have hlinked₂ := f.longer.linked
  have hchained₄ : Chained n₄.db.live := chained_extends hchained₃ f.other (by decide)
  have htip₁ : n₁.db.live.getChainTip = 1 := f.begun.tip.trans (by rw [freshNode_genesis.2.1]; rfl)
  obtain ⟨x, hx, hxhash⟩ := f.longer.top
  obtain ⟨y, hy, hyhash⟩ := f.other.top
  rw [htip₁] at hx
  rw [f.back.2.1] at hy
  generalize hclient : (LightClient.empty.syncFromBlockchain 2 n₂.db.live).2 = client
  have hrun : run (step .plain) replaced (fresh (freshNode true)) = ⟨n₄, (client.syncFromBlockchain 3 n₄.db.live).2⟩ := by
    have hsync : step .plain (.sync 2) ⟨n₂, .empty⟩ = ⟨n₂, client⟩ := hclient ▸ rfl
    show step .plain (.sync 3) (step .plain (.chain (secondCall "y")) (step .plain (.chain rollback) (step .plain (.sync 2)
      (step .plain (.chain (secondCall "x")) (step .plain (.chain firstCall) ⟨freshNode true, .empty⟩))))) = _
    rw [step_chain f.first, step_chain f.second, hsync, step_chain f.rolled, step_chain f.replaced]
    rfl
  have hheader : (client.syncFromBlockchain 3 n₄.db.live).2.getHeader 2 = some (.fromBlockDict 2 x) := by
    rw [getHeader_sync fun k d hd => hchained₄.1.keyed hd, ← hclient, getHeader_sync fun k d hd => hlinked₂.keyed hd,
      if_pos ⟨by decide, by rw [f.longer.tip, htip₁]; decide⟩]
    rw [show n₂.db.live.getBlock 2 = some x from hx]
    rfl
  have hkept : (BlockHeader.fromBlockDict 2 x).hash = "x" := (hash_fromBlockDict (by rw [hxhash]; decide) 2).trans hxhash
  rw [hrun]
  refine ⟨?_, ?_, fun hf => ?_⟩
  · rw [show n₄.db.live.getBlock 2 = some y from hy, Option.map_some, hyhash]
  · rw [hheader, Option.map_some, hkept]
  · obtain ⟨d, h, hd, hh, heq⟩ := hf.current 2 (by decide) (by rw [f.other.tip, f.back.2.1]; decide)
    rw [show n₄.db.live.getBlock 2 = some y from hy] at hd
    rw [hheader] at hh
    cases hd
    cases hh
    rw [hkept, hyhash] at heq
    exact absurd heq (by decide)

end forked

end LightNode

end AbsoluteChain
