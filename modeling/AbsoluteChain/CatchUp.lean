import AbsoluteChain.SyncLoss

/-!
# Catching up with a longer chain

An honest peer with a longer chain. The loop asks from the height after the own tip on,
and the parent of the first block it gets is stored here only if the own chain is a part of
the peer's.
-/

namespace AbsoluteChain

open Python Actions Act Transactions KeyedTable

def Tables.blocksFrom (t : Tables) : Nat → Int → List BlockDict
  | 0, _ => []
  | count + 1, h => (t.getBlock h).toList ++ Tables.blocksFrom t count (h + 1)

def Tables.handleGetBlocks (t : Tables) (batchSize first last : Int) : List BlockDict :=
  t.blocksFrom (min (last + 1) (first + batchSize) - first).toNat first

/-- Two chains that agree up to height `base`, and of which the second has above it no block of the first. -/
structure Forked (t u : Tables) (base : Int) : Prop where
  nonneg : 0 ≤ base
  inFirst : base ≤ t.getChainTip
  inSecond : base ≤ u.getChainTip
  common : ∀ h, h ≤ base → (t.getBlock h).map BlockDict.hash = (u.getBlock h).map BlockDict.hash
  apart : ∀ h k d e, base < k → t.getBlock h = some d → u.getBlock k = some e → d.hash ≠ e.hash

def SameChain (t u : Tables) : Prop := ∀ h, (t.getBlock h).map BlockDict.hash = (u.getBlock h).map BlockDict.hash

/-- The hashes of the chain are hashes: not empty, and not the parent hash of a genesis block. -/
def Hashed (t : Tables) : Prop := ∀ h d, t.getBlock h = some d → d.hash ≠ "" ∧ d.hash ≠ genesisHash

def Extends (c : Blockchain) (times : Int → Prop) (t : Tables) : Nat → Node → Prop
  | 0, _ => True
  | count + 1, n => ∀ now, times now → ∃ d b n', t.getBlock (n.db.live.getChainTip + 1) = some d ∧
      c.importBlock now d.asPeer n = (.ok b, n') ∧ Extends c times t count n'

theorem getBlockByHash_some {t : Tables} {hash : String} {d : BlockDict} (h : t.getBlockByHash hash = some d) :
    ∃ k, t.getBlock k = some d ∧ d.hash = hash := by
  unfold Tables.getBlockByHash at h
  obtain ⟨⟨k, e⟩, he, rfl⟩ := Option.map_eq_some_iff.mp h
  refine ⟨k, (Table.mem_rows_iff _ _ _).mp (List.mem_of_find?_eq_some he), ?_⟩
  simpa using List.find?_some he

theorem getBlockByHash_none {t : Tables} {hash : String} (h : ∀ k d, t.getBlock k = some d → d.hash ≠ hash) :
    t.getBlockByHash hash = none := by
  cases hd : t.getBlockByHash hash with
  | none => rfl
  | some d =>
    obtain ⟨k, hk, he⟩ := getBlockByHash_some hd
    exact absurd he (h k d hk)

namespace SyncState

variable {σ : Type}

structure Honest (w : World σ) (t : Tables) (batchSize : Int) : Prop where
  answers : ∀ first last st,
    (w.getBlocks first last st).1 = some ((t.handleGetBlocks batchSize first last).map fun d => some d.asPeer)
  status : ∀ st (p : PeerConnection), p.height = t.getChainTip → (w.status st p).height = t.getChainTip
  running : ∀ st, w.running st = true

variable {c : Blockchain} {w : World σ} {t : Tables} {batchSize : Int}

theorem blocksFrom_cons {count : Nat} {first : Int} {d : BlockDict} (hd : t.getBlock first = some d) :
    t.blocksFrom (count + 1) first = d :: t.blocksFrom count (first + 1) := by
  show (t.getBlock first).toList ++ _ = _
  rw [hd]
  rfl

end SyncState

namespace Blockchain

variable {c : Blockchain} {now : Int} {n n' : Node} {b' : Block}

/-- An accepted block has a height that the database can hold. -/
theorem importBlock_fits {d : PeerBlock} (h : c.importBlock now d n = (.ok b', n')) : SyncState.raises d = false := by
  unfold importBlock at h
  obtain ⟨u, hu, -⟩ := liftExcept_bind_ok.mp h
  have hfits := require_ok.mp hu
  unfold SyncState.raises
  simp only [hfits, Bool.not_true]

theorem importBlock_stray {d : BlockDict} (hl : Linked n.db.live) (hheight : d.height = n.db.live.getChainTip + 1)
    (hparent : ∀ last, n.db.live.getBlock n.db.live.getChainTip = some last → d.parentHash ≠ last.hash) :
    ∃ f n', c.importBlock now d.asPeer n = (.error f, n') ∧ n'.db.live.blocks = n.db.live.blocks := by
  have h₀ := hl.tip_nonneg
  have hzero : ¬ d.height = 0 := by omega
  rcases hrun : c.importBlock now d.asPeer n with ⟨f | b', n'⟩
  · have hkeeps : ¬ Truncates d.asPeer n := by
      rintro ⟨hz, -⟩
      exact hzero hz
    exact ⟨f, n', rfl, importBlock_rejected_blocks hkeeps hrun⟩
  · exfalso
    obtain ⟨n₁, h₁, -, hadd⟩ := importBlock_ok hrun
    rcases h₁ with rfl | ⟨-, -, -, -, hz⟩
    · obtain ⟨r⟩ := addBlock_ok hadd
      obtain ⟨last, hlast, -, hp, -⟩ := structured_linked hl (admitBlock_ok r.admitted).structured
      rw [hl.last] at hlast
      exact hparent last hlast hp
    · exact hzero hz

theorem importBlock_taken {d e : BlockDict} (he : n.db.live.getBlock d.height = some e) (hhash : d.hash = e.hash) :
    ∃ f n', c.importBlock now d.asPeer n = (.error f, n') ∧ n'.db.live.blocks = n.db.live.blocks := by
  have hsame : ∀ e', d.height = 0 → n.db.live.getBlock 0 = some e' → ¬ some d.hash ≠ some e'.hash := by
    intro e' hz he' hne
    rw [hz, he'] at he
    cases he
    exact hne (congrArg some hhash)
  rcases hrun : c.importBlock now d.asPeer n with ⟨f | b', n'⟩
  · have hkeeps : ¬ Truncates d.asPeer n := by
      rintro ⟨hz, e', he', hne⟩
      exact hsame e' hz he' hne
    exact ⟨f, n', rfl, importBlock_rejected_blocks hkeeps hrun⟩
  · exfalso
    obtain ⟨n₁, h₁, -, hadd⟩ := importBlock_ok hrun
    rcases h₁ with rfl | ⟨-, e', he', hne, hz⟩
    · obtain ⟨r⟩ := addBlock_ok hadd
      have hfree : n₁.db.live.getBlock d.height = none := (admitBlock_ok r.admitted).free
      rw [he] at hfree
      cases hfree
    · exact hsame e' hz he' hne

theorem importBlock_extends {d : BlockDict} (hl : Linked n.db.live) (hzero : d.height ≠ 0) (hhash : d.hash ≠ "")
    (hfresh : Fresh n d.hash) (h : c.importBlock now d.asPeer n = (.ok b', n')) :
    Linked n'.db.live ∧ n'.db.live.getChainTip = n.db.live.getChainTip + 1 ∧
      (∀ k e, n.db.live.getBlock k = some e → n'.db.live.getBlock k = some e) ∧
      (n'.db.live.getBlock (n.db.live.getChainTip + 1)).map BlockDict.hash = some d.hash := by
  obtain ⟨n₁, h₁, -, hadd⟩ := importBlock_ok h
  rcases h₁ with rfl | ⟨-, -, -, -, hz⟩
  · obtain ⟨r⟩ := addBlock_ok hadd
    have hown : (Block.fromDict c.host now (normalizeBlockDict d.asPeer)).hash = d.hash := by
      show orElse d.hash _ = d.hash
      unfold orElse
      rw [if_neg hhash]
    have hb : b'.hash = d.hash := by
      rw [r.hash_eq, hown, if_pos ⟨rfl, hhash⟩]
    have hfresh' : Fresh n₁ b'.hash := by rwa [hb]
    obtain ⟨htip, htop⟩ := accepted_tip hl hadd hfresh'
    obtain ⟨hlinked, hkept⟩ := accepted_linked hl hadd hfresh'
    refine ⟨hlinked, htip, hkept, ?_⟩
    rw [htop, Option.map_some]
    exact congrArg some hb
  · exact absurd hz hzero

end Blockchain

namespace SyncState

variable {σ : Type} {c : Blockchain} {w : World σ} {t : Tables} {batchSize peerBatch : Int} {times : Int → Prop}
  {s : SyncState σ}

/-! ## The node's chain is a part of the peer's -/

structure Reached (t : Tables) (m : Int) (s : SyncState σ) : Prop where
  closed : s.node.db.pending = none
  linked : Linked s.node.db.live
  tip : s.tip = m
  agrees : ∀ h, h ≤ m → (s.node.db.live.getBlock h).map BlockDict.hash = (t.getBlock h).map BlockDict.hash
  peer : s.peer.height = t.getChainTip

theorem reached_import (hp : Linked t) (hh : Hashed t) {m : Int} (hr : Reached t m s) {d : BlockDict}
    (hd : t.getBlock (m + 1) = some d) {b' : Block} {n' : Node}
    (h : c.importBlock (w.now s.world) d.asPeer s.node = (.ok b', n')) :
    s.importBlock c w d.asPeer = (true, (s.importBlock c w d.asPeer).2) ∧
      Reached t (m + 1) (s.importBlock c w d.asPeer).2 := by
  have hheight := hp.keyed hd
  have hm : 0 ≤ m := by
    rw [← hr.tip]
    exact hr.linked.tip_nonneg
  have hfresh : Blockchain.Fresh s.node d.hash := by
    intro k e he hhash
    have hk : k ≤ m := by
      rw [← hr.tip]
      exact ((hr.linked.heights k).mp (by rw [he]; rfl)).2
    have hsame := hr.agrees k hk
    rw [he, Option.map_some] at hsame
    obtain ⟨e', he', hhash'⟩ := Option.map_eq_some_iff.mp hsame.symm
    have := hp.distinct he' hd (hhash'.trans hhash)
    omega
  obtain ⟨hlinked, htip, hkept, htop⟩ := Blockchain.importBlock_extends hr.linked (by omega) (hh _ _ hd).1 hfresh h
  have hnode : (s.importBlock c w d.asPeer).2.node = n' := congrArg Prod.snd h
  have hok : (s.importBlock c w d.asPeer).1 = true := congrArg (fun r => r.1.isOk) h
  refine ⟨Prod.ext hok rfl, ?_, ?_, ?_, ?_, hr.peer⟩
  · exact Blockchain.idle_importBlock d.asPeer s.node hr.closed
  · rw [hnode]
    exact hlinked
  · show (s.importBlock c w d.asPeer).2.node.db.live.getChainTip = m + 1
    rw [hnode, htip, ← hr.tip]
    rfl
  · intro k hk
    rw [hnode]
    by_cases hnew : k = m + 1
    · rw [hnew, hd, Option.map_some, ← htop, ← hr.tip]
      rfl
    · rw [← hr.agrees k (by omega)]
      by_cases hk₀ : 0 ≤ k
      · obtain ⟨e, he⟩ := Option.isSome_iff_exists.mp ((hr.linked.heights k).mpr
          ⟨hk₀, by rw [show s.node.db.live.getChainTip = m from hr.tip]; omega⟩)
        rw [he, hkept k e he]
      · rw [hlinked.none_below hk₀, hr.linked.none_below hk₀]

/-- A whole answer, by induction on its length. -/
theorem reached_batch (hp : Linked t) (hh : Hashed t) (hclock : ∀ st, times (w.now st)) {count more : Nat} {m : Int}
    {importedAny : Bool} (hr : Reached t m s) (he : Extends c times t (count + more) s.node) :
    ∃ s', importBatch c w ((t.blocksFrom count (m + 1)).map fun d => some d.asPeer) (m + 1) importedAny s =
        (some (m + count + 1, importedAny || decide (0 < count)), s') ∧
      Reached t (m + count) s' ∧ Extends c times t more s'.node := by
  induction count generalizing m s importedAny with
  | zero =>
    refine ⟨s, ?_, ?_, ?_⟩
    · simp [Tables.blocksFrom, importBatch]
    · simpa using hr
    · simpa using he
  | succ count ih =>
    rw [show count + 1 + more = (count + more) + 1 by omega] at he
    obtain ⟨d, b', n', hd, hrun, hrest⟩ := he (w.now s.world) (hclock _)
    rw [show s.node.db.live.getChainTip = m from hr.tip] at hd
    obtain ⟨himport, hr₁⟩ := reached_import hp hh hr hd hrun
    have hnode : (s.importBlock c w d.asPeer).2.node = n' := congrArg Prod.snd hrun
    rw [← hnode] at hrest
    obtain ⟨s', hbatch, hr', he'⟩ := @ih _ _ true hr₁ hrest
    refine ⟨s', ?_, ?_, he'⟩
    · rw [blocksFrom_cons hd, List.map_cons]
      unfold importBatch
      rw [if_neg (by rw [Blockchain.importBlock_fits hrun]; exact Bool.false_ne_true), himport]
      dsimp only
      rw [show field d.asPeer.height d.asPeer.number (m + 1) = m + 1 from hp.keyed hd, hbatch]
      refine Prod.ext (congrArg some (Prod.ext ?_ ?_)) rfl
      · push_cast
        ring
      · simp
    · rw [show m + ((count + 1 : ℕ) : ℤ) = m + 1 + count by push_cast; ring]
      exact hr'

theorem reached_loop (hp : Linked t) (hh : Hashed t) (hw : Honest w t peerBatch) (hclock : ∀ st, times (w.now st))
    (hbatch : 0 < batchSize) (hpeer : 0 < peerBatch) {fuel : Nat} {m : Int} (hr : Reached t m s)
    (he : Extends c times t (t.getChainTip - m).toNat s.node) (hm : m ≤ t.getChainTip)
    (hfuel : (t.getChainTip - m).toNat < fuel) :
    ∃ s', syncLoop c w batchSize fuel (m + 1) s = some s' ∧ Reached t t.getChainTip s' := by
  induction fuel generalizing m s with
  | zero => omega
  | succ fuel ih =>
    unfold syncLoop
    by_cases hend : m = t.getChainTip
    · have hstop : ¬ (m + 1 ≤ s.peer.height ∧ w.running s.world = true) := by
        rw [hr.peer]
        rintro ⟨h, -⟩
        omega
      rw [if_neg hstop]
      refine ⟨s, rfl, ?_⟩
      rw [← hend]
      exact hr
    -- the node is behind, so it asks for one batch more
    · have hgo : m + 1 ≤ s.peer.height ∧ w.running s.world = true := by
        refine ⟨?_, hw.running _⟩
        rw [hr.peer]
        omega
      rw [if_pos hgo]
      obtain ⟨count, hcount⟩ : ∃ count : ℕ, (min (min (m + 1 + batchSize - 1) s.peer.height + 1) (m + 1 + peerBatch) - (m + 1)).toNat =
          count + 1 := by
        refine ⟨_, (Nat.succ_pred_eq_of_pos ?_).symm⟩
        rw [hr.peer]
        omega
      have hle : count + 1 ≤ (t.getChainTip - m).toNat := by
        rw [← hcount, hr.peer]
        omega
      have hask : ∃ s₁, s.askBlocks w (m + 1) (min (m + 1 + batchSize - 1) s.peer.height) =
          (some ((t.blocksFrom (count + 1) (m + 1)).map fun d => some d.asPeer), s₁) ∧ s₁.node = s.node ∧
          s₁.peer.height = t.getChainTip := by
        refine ⟨_, Prod.ext ?_ rfl, rfl, hw.status _ _ hr.peer⟩
        refine (hw.answers _ _ _).trans ?_
        unfold Tables.handleGetBlocks
        rw [hcount]
      obtain ⟨s₁, hask, hnode, hheight⟩ := hask
      have hr₁ : Reached t m s₁ := by
        refine ⟨?_, ?_, ?_, ?_, hheight⟩
        · rw [hnode]
          exact hr.closed
        · rw [hnode]
          exact hr.linked
        · show s₁.node.db.live.getChainTip = m
          rw [hnode]
          exact hr.tip
        · rw [hnode]
          exact hr.agrees
      obtain ⟨more, hmore⟩ := Nat.exists_eq_add_of_le hle
      rw [hmore, ← hnode] at he
      -- the batch is stored, and the loop goes on behind it
      obtain ⟨s₂, hrun, hr₂, he₂⟩ := @reached_batch σ c w t times _ hp hh hclock _ _ _ false hr₁ he
      obtain ⟨d, hd⟩ := Option.isSome_iff_exists.mp ((hp.heights (m + 1)).mpr
        ⟨by have := hr.linked.tip_nonneg; have := hr.tip; unfold tip at this; omega, by omega⟩)
      rw [hask, blocksFrom_cons hd, List.map_cons]
      rw [blocksFrom_cons hd, List.map_cons] at hrun
      dsimp only
      rw [hrun]
      simp only [Bool.false_or, Nat.zero_lt_succ, decide_true]
      have hr₃ : Reached t (m + (count + 1 : ℕ)) { s₂ with peer := { s₂.peer with height := max s₂.peer.height s₂.tip } } := by
        refine ⟨hr₂.closed, hr₂.linked, hr₂.tip, hr₂.agrees, ?_⟩
        show max s₂.peer.height s₂.tip = t.getChainTip
        rw [hr₂.peer, hr₂.tip]
        omega
      have hleft : (t.getChainTip - (m + (count + 1 : ℕ))).toNat = more := by
        push_cast
        omega
      exact ih hr₃ (by rw [hleft]; exact he₂) (by push_cast; omega) (by omega)

/-! ## The chains have parted -/

theorem batch_refused {d : BlockDict} {rest : List (Option PeerBlock)} {current : Int} {f : Fault} {n' : Node}
    (hrun : c.importBlock (w.now s.world) d.asPeer s.node = (.error f, n')) (hsame : n'.db.live.blocks = s.node.db.live.blocks)
    (hparent : ∀ k, s.node.db.live.findAncestorHeight d.parentHash = some k → s.tip ≤ k) :
    ∃ r s', importBatch c w (some d.asPeer :: rest) current false s = (r, s') ∧ (r = none ∨ r = some (current, false)) ∧
      s'.node.db.live.blocks = s.node.db.live.blocks := by
  unfold importBatch
  by_cases hraises : raises d.asPeer = true
  · rw [if_pos hraises]
    exact ⟨none, s, rfl, .inl rfl, rfl⟩
  · rw [if_neg hraises]
    have himport : s.importBlock c w d.asPeer = (false, (s.importBlock c w d.asPeer).2) :=
      Prod.ext (congrArg (fun r => r.1.isOk) hrun) rfl
    have hnode : (s.importBlock c w d.asPeer).2.node.db.live.blocks = s.node.db.live.blocks := by
      rw [← hsame]
      exact congrArg (fun r => r.2.db.live.blocks) hrun
    rw [himport]
    generalize (s.importBlock c w d.asPeer).2 = s₁ at hnode ⊢
    dsimp only
    have hfind : s₁.node.db.live.findAncestorHeight (d.asPeer.parentHash.getD "") =
        s.node.db.live.findAncestorHeight d.parentHash := by
      show s₁.node.db.live.findAncestorHeight d.parentHash = _
      unfold Tables.findAncestorHeight Tables.getBlockByHash
      rw [hnode]
    rw [hfind]
    cases hk : s.node.db.live.findAncestorHeight d.parentHash with
    | none => exact ⟨_, s₁, rfl, .inr rfl, hnode⟩
    | some k =>
      have hnot : ¬ k < s₁.tip := by
        have hle := hparent k hk
        have htip : s₁.tip = s.tip := chainTip_congr hnode
        omega
      dsimp only
      rw [if_neg hnot]
      exact ⟨_, s₁, rfl, .inr rfl, hnode⟩

theorem loop_refused (hw : Honest w t peerBatch) (hbatch : 0 < batchSize) (hpeer : 0 < peerBatch) {current : Int}
    (hheight : s.peer.height = t.getChainTip) (hcurrent : current ≤ t.getChainTip) {d : BlockDict}
    (hd : t.getBlock current = some d)
    (hrun : ∀ now, ∃ f n', c.importBlock now d.asPeer s.node = (.error f, n') ∧ n'.db.live.blocks = s.node.db.live.blocks)
    (hparent : ∀ k, s.node.db.live.findAncestorHeight d.parentHash = some k → s.tip ≤ k) :
    ∃ s', syncLoop c w batchSize 1 current s = some s' ∧ s'.node.db.live.blocks = s.node.db.live.blocks := by
  unfold syncLoop
  have hgo : current ≤ s.peer.height ∧ w.running s.world = true := by
    refine ⟨?_, hw.running _⟩
    rw [hheight]
    exact hcurrent
  rw [if_pos hgo]
  obtain ⟨count, hcount⟩ : ∃ count : ℕ, (min (min (current + batchSize - 1) s.peer.height + 1) (current + peerBatch) - current).toNat =
      count + 1 := by
    refine ⟨_, (Nat.succ_pred_eq_of_pos ?_).symm⟩
    rw [hheight]
    omega
  obtain ⟨s₁, hask, hnode⟩ : ∃ s₁, s.askBlocks w current (min (current + batchSize - 1) s.peer.height) =
      (some (some d.asPeer :: (t.blocksFrom count (current + 1)).map fun d => some d.asPeer), s₁) ∧ s₁.node = s.node := by
    refine ⟨_, Prod.ext ?_ rfl, rfl⟩
    refine (hw.answers _ _ _).trans ?_
    unfold Tables.handleGetBlocks
    rw [hcount, blocksFrom_cons hd, List.map_cons]
  rw [hask]
  dsimp only
  obtain ⟨f, n', hrun₁, hsame⟩ := hrun (w.now s₁.world)
  rw [← hnode] at hrun₁ hsame hparent
  have hparent₁ : ∀ k, s₁.node.db.live.findAncestorHeight d.parentHash = some k → s₁.tip ≤ k := by
    intro k hk
    have htip : s₁.tip = s.tip := congrArg (fun n : Node => n.db.live.getChainTip) hnode
    rw [htip]
    exact hparent k hk
  obtain ⟨r, s₂, hbatch₂, hr, hblocks⟩ := @batch_refused σ c w _ _
    ((t.blocksFrom count (current + 1)).map fun d => some d.asPeer) current _ _ hrun₁ hsame hparent₁
  rw [hbatch₂, ← hnode]
  rcases hr with rfl | rfl
  · exact ⟨s₂, rfl, hblocks⟩
  · exact ⟨s₂, rfl, hblocks⟩

/-- The loop ends, and it leaves the peer's chain exactly when the own chain is a part of it that is
higher than the genesis block: no fork is resolved. -/
theorem catches_up {base : Int} (hclosed : s.node.db.pending = none) (hl : Linked s.node.db.live) (hp : Linked t)
    (hh : Hashed t) (hfork : Forked s.node.db.live t base) (hlonger : s.tip < t.getChainTip)
    (hheight : s.peer.height = t.getChainTip) (hw : Honest w t peerBatch) (hclock : ∀ st, times (w.now st))
    (hbatch : 0 < batchSize) (hpeer : 0 < peerBatch)
    (hvalid : base = s.tip → Extends c times t (t.getChainTip - s.tip).toNat s.node) :
    ∃ fuel s', syncWithPeer c w batchSize fuel s = some s' ∧
      (SameChain s'.node.db.live t ↔ base = s.tip ∧ 1 ≤ s.tip) := by
  have h₀ : 0 ≤ s.tip := hl.tip_nonneg
  have hlow : ¬ s.peer.height < s.tip := by omega
  have hlevel : ¬ s.peer.height = s.tip := by omega
  have hunfold : ∀ fuel, syncWithPeer c w batchSize fuel s =
      syncLoop c w batchSize fuel (if s.tip = 0 then 0 else s.tip + 1) s := by
    intro fuel
    unfold syncWithPeer
    dsimp only
    rw [if_neg hlow, if_neg hlevel]
  -- a node that ends on its own blocks is behind the peer
  have hshort : ∀ {u : Tables}, u.blocks = s.node.db.live.blocks → ¬ SameChain u t := by
    intro u hu hsame
    obtain ⟨d, hd⟩ := hp.exists_block hp.tip_nonneg (le_refl _)
    have htop := hsame t.getChainTip
    rw [hd, getBlock_congr hu, Option.map_some] at htop
    obtain ⟨e, he, -⟩ := Option.map_eq_some_iff.mp htop
    have hle : t.getChainTip ≤ s.tip := ((hl.heights _).mp (by rw [he]; rfl)).2
    omega
  have hstored : ∀ {hash : String} {k : Int} {e : BlockDict}, s.node.db.live.getBlockByHash hash = some e → e.height = k →
      s.node.db.live.getBlock k = some e := by
    intro hash k e he hk
    obtain ⟨j, hj, -⟩ := getBlockByHash_some he
    rw [← hk, hl.keyed hj]
    exact hj
  -- on its genesis block the node asks from 0 and finds that height taken
  by_cases hzero : s.tip = 0
  · obtain ⟨e, he⟩ := hl.exists_block (le_refl _) h₀
    have hgenesis := hfork.common 0 hfork.nonneg
    rw [he, Option.map_some] at hgenesis
    obtain ⟨d, hd, hhash⟩ := Option.map_eq_some_iff.mp hgenesis.symm
    obtain ⟨s', hrun, hsame⟩ := loop_refused (c := c) (s := s) hw hbatch hpeer hheight (by omega) hd
      (fun now => Blockchain.importBlock_taken (by rw [hp.keyed hd]; exact he) hhash) fun k hk => by
        unfold Tables.findAncestorHeight at hk
        rw [hzero]
        split at hk
        · cases hk
          exact le_refl _
        · obtain ⟨e', he', hk'⟩ := Option.map_eq_some_iff.mp hk
          exact ((hl.heights k).mp (by rw [hstored he' hk']; rfl)).1
    refine ⟨1, s', ?_, iff_of_false (hshort hsame) (by omega)⟩
    rw [hunfold, if_pos hzero]
    exact hrun
  -- above it every batch goes on top when the node's chain is a part of the peer's
  · by_cases hpart : base = s.tip
    · have hr : Reached t s.tip s := by
        refine ⟨hclosed, hl, rfl, fun h hle => hfork.common h ?_, hheight⟩
        rw [hpart]
        exact hle
      obtain ⟨s', hrun, hr'⟩ := @reached_loop _ _ _ _ _ _ _ _ hp hh hw hclock hbatch hpeer ((t.getChainTip - s.tip).toNat + 1) _ hr
        (hvalid hpart) (by omega) (Nat.lt_succ_self _)
      refine ⟨(t.getChainTip - s.tip).toNat + 1, s', ?_, iff_of_true (fun h => ?_) ⟨hpart, by omega⟩⟩
      · rw [hunfold, if_neg hzero]
        exact hrun
      · by_cases hle : h ≤ t.getChainTip
        · exact hr'.agrees h hle
        · rw [hr'.linked.none_above (hr'.tip.trans_lt (by omega)), hp.none_above (by omega)]
    -- otherwise the first block it asks for has a parent it does not have
    · have hbelow : base < s.tip := lt_of_le_of_ne hfork.inFirst hpart
      obtain ⟨d, hd⟩ := hp.exists_block (h := s.tip + 1) (by omega) (by omega)
      obtain ⟨p, hpd⟩ := hp.exists_block h₀ (by omega)
      have hparent := hp.parents hd hpd
      obtain ⟨hne, hng⟩ := hh _ _ hpd
      have hstray : ∀ now, ∃ f n', c.importBlock now d.asPeer s.node = (.error f, n') ∧
          n'.db.live.blocks = s.node.db.live.blocks := by
        intro now
        refine Blockchain.importBlock_stray hl (hp.keyed hd) fun last hlast => ?_
        rw [hparent]
        exact (hfork.apart _ _ _ _ hbelow hlast hpd).symm
      obtain ⟨s', hrun, hsame⟩ := loop_refused (s := s) hw hbatch hpeer hheight (by omega) hd hstray fun k hk => by
        unfold Tables.findAncestorHeight at hk
        rw [hparent, if_neg (not_or.mpr ⟨hne, hng⟩), getBlockByHash_none fun j e he =>
          hfork.apart j s.tip e p hbelow he hpd] at hk
        cases hk
      refine ⟨1, s', ?_, iff_of_false (hshort hsame) fun h => hpart h.1⟩
      rw [hunfold, if_neg hzero]
      exact hrun

/-! ### Runs against an honest peer -/

def honest (t : Tables) (batchSize : Int) : World Unit where
  getBlocks first last _ := (some ((t.handleGetBlocks batchSize first last).map fun d => some d.asPeer), ())
  getBlockByHash hash _ := ((t.getBlockByHash hash).map BlockDict.asPeer, ())
  status _ peer := peer
  running _ := true
  now _ := 2
  floor _ := 0

def thirdRow : BlockDict := { Blockchain.genesisRow with height := 2, hash := "x", parentHash := "b" }

def threeBlocks : Tables := twoBlocks.db.live.putBlock thirdRow

theorem twoBlocks_fresh : Blockchain.Fresh twoBlocks "x" := by
  intro h d hd
  rcases twoBlocks_get hd with hg | hg
  · rw [hg]
    decide
  · rw [hg]
    decide

theorem threeBlocks_linked : Linked threeBlocks ∧
    ∀ h d, twoBlocks.db.live.getBlock h = some d → threeBlocks.getBlock h = some d :=
  @Linked.put _ twoBlocks_linked _ secondRow rfl rfl rfl twoBlocks_fresh

theorem threeBlocks_top {h : Int} {d : BlockDict} (hh : 1 < h) (hd : threeBlocks.getBlock h = some d) : h = 2 ∧ d = thirdRow := by
  have htip : threeBlocks.getChainTip = 2 := by decide
  have hle := ((threeBlocks_linked.1.heights h).mp (by rw [hd]; rfl)).2
  obtain rfl : h = 2 := by omega
  have htop : threeBlocks.getBlock 2 = some thirdRow := by
    unfold threeBlocks
    rw [getBlock_putBlock]
    exact if_pos rfl
  rw [htop] at hd
  cases hd
  exact ⟨rfl, rfl⟩

theorem twoBlocks_forked : Forked twoBlocks.db.live threeBlocks 1 := by
  refine ⟨by decide, by decide, by decide, fun h hh => ?_, fun h k d e hk hd he => ?_⟩
  · cases hd : twoBlocks.db.live.getBlock h with
    | some d => rw [threeBlocks_linked.2 h d hd]
    | none =>
      cases he : threeBlocks.getBlock h with
      | none => rfl
      | some e =>
        have hpos := ((threeBlocks_linked.1.heights h).mp (by rw [he]; rfl)).1
        have hsome := (twoBlocks_linked.heights h).mpr ⟨hpos, hh⟩
        rw [hd] at hsome
        cases hsome
  · obtain ⟨-, rfl⟩ := threeBlocks_top hk he
    exact twoBlocks_fresh h d hd

theorem catches_up_next : ∃ fuel s', syncWithPeer Blockchain.plain (honest threeBlocks 5) 100 fuel (meeting 2) = some s' ∧
    SameChain s'.node.db.live threeBlocks := by
  have hhashed : Hashed threeBlocks := by
    intro h d hd
    have hcases : d.hash = "g" ∨ d.hash = "b" ∨ d.hash = "x" := by
      by_cases hh : 1 < h
      · rw [(threeBlocks_top hh hd).2]
        exact .inr (.inr rfl)
      · obtain ⟨e, he⟩ := Option.isSome_iff_exists.mp ((twoBlocks_linked.heights h).mpr
          ⟨((threeBlocks_linked.1.heights h).mp (by rw [hd]; rfl)).1, not_lt.mp hh⟩)
        have hde := threeBlocks_linked.2 h e he
        rw [hd] at hde
        cases hde
        rcases twoBlocks_get he with hg | hg
        · exact .inl hg
        · exact .inr (.inl hg)
    have hletters : ∀ x ∈ ["g", "b", "x"], x ≠ "" ∧ x ≠ genesisHash := by decide +kernel
    exact hletters _ (by simpa using hcases)
  have haccepted : (Blockchain.plain.importBlock 2 thirdRow.asPeer twoBlocks).1.isOk = true := by decide +kernel
  have hvalid : Extends Blockchain.plain (fun now => now = 2) threeBlocks 1 twoBlocks := by
    rintro now rfl
    rcases hrun : Blockchain.plain.importBlock 2 thirdRow.asPeer twoBlocks with ⟨f | b', n'⟩
    · rw [hrun] at haccepted
      cases haccepted
    · refine ⟨thirdRow, b', n', ?_, hrun, trivial⟩
      exact (getBlock_putBlock thirdRow twoBlocks.db.live 2).trans (if_pos rfl)
  have hhonest : Honest (honest threeBlocks 5) threeBlocks 5 := ⟨fun _ _ _ => rfl, fun _ _ h => h, fun _ => rfl⟩
  obtain ⟨fuel, s', hrun, hchain⟩ := catches_up (s := meeting 2) rfl twoBlocks_linked threeBlocks_linked.1 hhashed
    twoBlocks_forked (by decide) (by decide) hhonest (fun _ => rfl) (by decide : 0 < (100 : Int)) (by decide) fun _ => hvalid
  exact ⟨fuel, s', hrun, hchain.mpr ⟨by decide, by decide⟩⟩

/-- A fork one block below the tip, and a node that has the genesis block only: the honest peer's chain is
not adopted. -/
theorem fork_not_resolved :
    let other := ((Blockchain.genesisNode none).db.live.putBlock { secondRow with hash := "c" }).putBlock
      { thirdRow with parentHash := "c" }
    let lone : SyncState Unit := { meeting 2 with node := Blockchain.genesisNode none }
    let hashes (n : Node) := n.db.live.blocks.rows.map fun e => e.2.hash
    (syncWithPeer Blockchain.plain (honest other 100) 100 5 (meeting 2)).map (fun s => hashes s.node) = some ["g", "b"] ∧
    (syncWithPeer Blockchain.plain (honest other 100) 100 5 lone).map (fun s => hashes s.node) = some ["g"] := by
  decide +kernel

end SyncState

end AbsoluteChain
