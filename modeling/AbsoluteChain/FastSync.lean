import AbsoluteChain.Act
import AbsoluteChain.Chain
import Mathlib.Data.List.Induction

/-!
# Fast sync

`fast_sync` of `sync/sync_engine.py`: the best head of the peers is chosen, its ancestors
are downloaded back to the local height, and what is new is checked and imported. The
node is a parameter: what it answers may depend on a state of its own, and every call
may raise.
-/

namespace AbsoluteChain

open Python Actions Act

/-! ## The node -/

structure SyncBlock where
  dict : PeerBlock
  parent : Option String
  deriving DecidableEq

namespace SyncBlock

variable (b : SyncBlock)

def height : Int := field b.dict.height b.dict.number 0

def hash : String := b.dict.hash.getD ""

def parentHash : String := orElse (b.dict.parentHash.getD "") (b.parent.getD "")

end SyncBlock

inductive ReportedHead where
  | dict (hash : Option String)
  | text (hash : String)
  | other

structure SyncPeer where
  head : ReportedHead
  height : Int

structure PeerHead where
  hash : String
  height : Int

structure SyncNode (ε κ σ : Type) where
  getHeight : κ → Except ε Int
  getBlock : Int → κ → Except ε (Option SyncBlock)
  getBlockByHash : String → κ → Except ε (Option SyncBlock)
  importBlock : SyncBlock → Act ε (κ × σ) Bool
  /-- `p2p.peers`. -/
  livePeers : Act ε σ (List SyncPeer)
  fetchBlockFromPeers : String → Act ε σ (Option SyncBlock)
  /-- `consensus.get_cumulative_weight`, if there is one. -/
  getCumulativeWeight : Option (String → Act ε σ Int)
  /-- `consensus.set_head` or `chain.set_head`, if there is one. -/
  setHead : Option (String → Act ε (κ × σ) Unit)
  syncState : Act ε (κ × σ) Bool

structure SyncEngine (κ σ : Type) where
  peers : List SyncPeer
  isSyncing : Bool
  syncProgress : Nat
  chain : κ
  world : σ
  imports : List SyncBlock

namespace SyncNode

variable {ε κ σ : Type} (node : SyncNode ε κ σ)

def onChain {α : Type} (f : κ → Except ε α) : Act ε (SyncEngine κ σ) α := fun s => (f s.chain, s)

def onWorld {α : Type} (m : Act ε σ α) : Act ε (SyncEngine κ σ) α := fun s =>
  let r := m s.world
  (r.1, { s with world := r.2 })

/-- A call that may change both. -/
def onNode {α : Type} (m : Act ε (κ × σ) α) : Act ε (SyncEngine κ σ) α := fun s =>
  let r := m (s.chain, s.world)
  (r.1, { s with chain := r.2.1, world := r.2.2 })

def setSyncing (b : Bool) : Act ε (SyncEngine κ σ) Unit := write fun s => { s with isSyncing := b }

/-! ## Heads -/

def collectP2pPeers : Act ε (SyncEngine κ σ) (List SyncPeer) := do
  let live ← onWorld node.livePeers
  let known ← read SyncEngine.peers
  return if live = [] then known else live

def reported : ReportedHead → String
  | .dict hash => hash.getD ""
  | .text hash => hash
  | .other => ""

def headOf (peer : SyncPeer) : Act ε (SyncEngine κ σ) String :=
  if reported peer.head = "" ∧ peer.height ≠ 0 then do
    let blk ← onChain (node.getBlock peer.height)
    return (blk.map SyncBlock.hash).getD ""
  else pure (reported peer.head)

def headsOf : List SyncPeer → Act ε (SyncEngine κ σ) (List PeerHead)
  | [] => pure []
  | peer :: rest => do
    let hash ← node.headOf peer
    let heads ← headsOf rest
    return if hash = "" then heads else { hash, height := peer.height } :: heads

def requestHeads : Act ε (SyncEngine κ σ) (List PeerHead) := do
  let peers ← node.collectP2pPeers
  node.headsOf peers

def weightOf (hash : String) : Act ε (SyncEngine κ σ) Int :=
  match node.getCumulativeWeight with
  | some weigh => onWorld (weigh hash)
  | none => pure 0

def selectFrom : Option String × Int × Int → List PeerHead → Act ε (SyncEngine κ σ) (Option String)
  | best, [] => pure best.1
  | best, head :: rest => do
    let weight ← node.weightOf head.hash
    selectFrom (if best.2.1 < weight ∨ best.2.1 = weight ∧ best.2.2 < head.height then (some head.hash, weight, head.height)
      else best) rest

def selectBestHead (heads : List PeerHead) : Act ε (SyncEngine κ σ) (Option String) := node.selectFrom (none, -1, -1) heads

def maxHeight (heads : List PeerHead) : Int := (heads.map PeerHead.height).foldl max ((heads.map PeerHead.height).headD 0)

/-! ## Download -/

def nodeGetBlock (hash : String) : Act ε (SyncEngine κ σ) (Option SyncBlock) := do
  match ← onChain (node.getBlockByHash hash) with
  | some blk => return some blk
  | none => onWorld (node.fetchBlockFromPeers hash)

def resolveBlock (hash : String) : Act ε (SyncEngine κ σ) (Option SyncBlock) := do
  match ← node.nodeGetBlock hash with
  | some blk => return some blk
  | none => node.nodeGetBlock hash

def lookup (hash : String) : Act ε (SyncEngine κ σ) (Option SyncBlock) := do
  match ← onChain (node.getBlockByHash hash) with
  | some blk => return some blk
  | none => node.resolveBlock hash

def walk (stop : Int) : Nat → String → List String → Act ε (SyncEngine κ σ) (List SyncBlock)
  | 0, _, _ => pure []
  | room + 1, current, seen =>
    if current = "" ∨ current ∈ seen then pure []
    else do
      match ← node.lookup current with
      | none => return []
      | some block =>
        if block.height ≤ stop then return []
        else do
          let rest ← walk stop room block.parentHash (current :: seen)
          return block :: rest

def downloadChain (head : String) (stop : Int) : Act ε (SyncEngine κ σ) (List SyncBlock) := do
  let chain ← node.walk stop 10001 head []
  return chain.reverse

def contiguous : String → Int → List SyncBlock → Bool
  | _, _, [] => true
  | previousHash, previousHeight, block :: rest =>
    block.hash ≠ "" && block.height = previousHeight + 1 && (previousHash = "" || block.parentHash = previousHash) &&
      contiguous block.hash block.height rest

def validateDownloadedChain (chain : List SyncBlock) (localHeight : Int) : Act ε (SyncEngine κ σ) Bool :=
  if chain = [] then pure true
  else do
    let localHead ← onChain (node.getBlock localHeight)
    return contiguous ((localHead.map SyncBlock.hash).getD "") localHeight chain

/-! ## Import -/

def importOne (block : SyncBlock) : Act ε (SyncEngine κ σ) Bool := do
  write fun s => { s with imports := s.imports ++ [block] }
  onNode (node.importBlock block)

def importAll : Nat → List SyncBlock → Act ε (SyncEngine κ σ) Bool
  | _, [] => pure true
  | i, block :: rest => do
    if ← node.importOne block then do
      write fun s => { s with syncProgress := i + 1 }
      importAll (i + 1) rest
    else return false

def leave (result : Bool) : Act ε (SyncEngine κ σ) Bool := do
  setSyncing false
  return result

def setBestHead (head : String) : Act ε (SyncEngine κ σ) Unit :=
  match node.setHead with
  | some setHead => onNode (setHead head)
  | none => pure ()

def finish (head : String) (result : Bool) : Act ε (SyncEngine κ σ) Bool := do
  node.setBestHead head
  let _ ← onNode node.syncState
  setSyncing false
  let _ ← onChain node.getHeight
  return result

def importDownloaded (head : String) (bestPeerH localH : Int) (toImport : List SyncBlock) : Act ε (SyncEngine κ σ) Bool := do
  if ← node.validateDownloadedChain toImport localH then do
    if ← node.importAll 0 toImport then node.finish head (0 < toImport.length ∨ bestPeerH ≤ localH)
    else leave false
  else leave false

def newBlocks (chain : List SyncBlock) (localH : Int) (targetH : Option Int) : List SyncBlock :=
  sortedBy SyncBlock.height (chain.filter fun block => localH < block.height ∧ ∀ h ∈ targetH, block.height ≤ h)

def syncTo (head : String) (bestPeerH localH : Int) (targetH : Option Int) : Act ε (SyncEngine κ σ) Bool := do
  if bestPeerH ≤ localH then do
    let _ ← onNode node.syncState
    leave true
  else do
    let chain ← node.downloadChain head localH
    if chain = [] then leave false
    else if newBlocks chain localH targetH = [] then do
      let _ ← onNode node.syncState
      leave true
    else node.importDownloaded head bestPeerH localH (newBlocks chain localH targetH)

def fastSync (targetBlock : Int) : Act ε (SyncEngine κ σ) Bool := do
  if ← read SyncEngine.isSyncing then return false
  else do
    let localH ← onChain node.getHeight
    setSyncing true
    let heads ← node.requestHeads
    if heads = [] then leave false
    else do
      match ← node.selectBestHead heads with
      | none => leave false
      | some head =>
        let best := maxHeight heads
        if 0 < targetBlock then
          let bestPeerH := min best targetBlock
          node.syncTo head bestPeerH localH (some bestPeerH)
        else node.syncTo head best localH none

end SyncNode

/-! ## Extensions of the tip -/

def TipExtension : String → Int → List SyncBlock → Prop
  | _, _, [] => True
  | hash, height, block :: rest =>
    block.hash ≠ "" ∧ block.height = height + 1 ∧ (hash ≠ "" → block.parentHash = hash) ∧ TipExtension block.hash block.height rest

def headHash (hash : String) (blocks : List SyncBlock) : String := (blocks.getLast?.map SyncBlock.hash).getD hash

theorem headHash_cons (hash : String) (b : SyncBlock) (blocks : List SyncBlock) :
    headHash hash (b :: blocks) = headHash b.hash blocks := by
  cases blocks with
  | nil => rfl
  | cons c rest =>
    unfold headHash
    rw [List.getLast?_cons_cons]
    cases hlast : (c :: rest).getLast? with
    | none => exact absurd (List.getLast?_eq_none_iff.mp hlast) (List.cons_ne_nil _ _)
    | some d => rfl

theorem headHash_concat (hash : String) (blocks : List SyncBlock) (b : SyncBlock) : headHash hash (blocks ++ [b]) = b.hash := by
  unfold headHash
  rw [List.getLast?_append, List.getLast?_singleton]
  rfl

namespace TipExtension

variable {hash : String} {height : Int} {blocks rest : List SyncBlock}

theorem of_append (h : TipExtension hash height (blocks ++ rest)) : TipExtension hash height blocks := by
  induction blocks generalizing hash height with
  | nil => trivial
  | cons b blocks ih => exact ⟨h.1, h.2.1, h.2.2.1, ih h.2.2.2⟩

theorem of_prefix (h : TipExtension hash height rest) (hp : blocks <+: rest) : TipExtension hash height blocks := by
  obtain ⟨tail, rfl⟩ := hp
  exact h.of_append

theorem tail (h : TipExtension hash height (blocks ++ rest)) : TipExtension (headHash hash blocks) (height + blocks.length) rest := by
  induction blocks generalizing hash height with
  | nil =>
    show TipExtension hash (height + 0) rest
    rw [add_zero]
    exact h
  | cons b blocks ih =>
    have hrest := ih h.2.2.2
    rw [headHash_cons]
    rw [h.2.1] at hrest
    have hlen : height + 1 + (blocks.length : Int) = height + ((b :: blocks).length : Int) := by
      rw [List.length_cons]
      push_cast
      ring
    rw [hlen] at hrest
    exact hrest

theorem hash_ne_empty (h : TipExtension hash height blocks) {b : SyncBlock} (hb : b ∈ blocks) : b.hash ≠ "" := by
  obtain ⟨before, after, rfl⟩ := List.append_of_mem hb
  exact h.tail.1

theorem above (h : TipExtension hash height blocks) {b : SyncBlock} (hb : b ∈ blocks) : height < b.height := by
  obtain ⟨before, after, rfl⟩ := List.append_of_mem hb
  have hb := h.tail.2.1
  omega

theorem below (h : TipExtension hash height blocks) {b : SyncBlock} (hb : b ∈ blocks) : b.height ≤ height + blocks.length := by
  obtain ⟨before, after, rfl⟩ := List.append_of_mem hb
  have hb := h.tail.2.1
  rw [hb, List.length_append, List.length_cons]
  push_cast
  omega

theorem sorted (h : TipExtension hash height blocks) : blocks.Pairwise fun a b => a.height ≤ b.height := by
  induction blocks generalizing hash height with
  | nil => exact List.Pairwise.nil
  | cons b blocks ih => exact List.Pairwise.cons (fun c hc => (above h.2.2.2 hc).le) (ih h.2.2.2)

theorem headHash_ne_empty (h : TipExtension hash height blocks) (hh : hash ≠ "") : headHash hash blocks ≠ "" := by
  rcases List.eq_nil_or_concat blocks with rfl | ⟨init, b, rfl⟩
  · exact hh
  · rw [List.concat_eq_append] at h ⊢
    rw [headHash_concat]
    exact h.hash_ne_empty (List.mem_append_right _ (List.mem_singleton_self b))

end TipExtension

theorem contiguous_iff (hash : String) (height : Int) (blocks : List SyncBlock) :
    SyncNode.contiguous hash height blocks = true ↔ TipExtension hash height blocks := by
  induction blocks generalizing hash height with
  | nil => exact iff_of_true rfl trivial
  | cons b rest ih =>
    unfold SyncNode.contiguous TipExtension
    rw [Bool.and_eq_true, Bool.and_eq_true, Bool.and_eq_true, ih, Bool.or_eq_true, decide_eq_true_eq, decide_eq_true_eq,
      decide_eq_true_eq, decide_eq_true_eq, and_assoc, and_assoc, or_iff_not_imp_left]

namespace SyncNode

variable {ε κ σ : Type} {node : SyncNode ε κ σ}

/-! ## What each part leaves alone -/

def untouched : Frame (SyncEngine κ σ) := .fixed fun s => (s.chain, s.imports)

def noImport : Frame (SyncEngine κ σ) := .fixed SyncEngine.imports

theorem keeps_onChain {α : Type} (f : κ → Except ε α) : Keeps untouched (onChain (σ := σ) f) := fun _ => rfl

theorem keeps_onWorld {α : Type} (m : Act ε σ α) : Keeps untouched (onWorld (κ := κ) m) := fun _ => rfl

theorem keeps_onNode {α : Type} (m : Act ε (κ × σ) α) : Keeps noImport (onNode m) := fun _ => rfl

theorem keeps_setSyncing (b : Bool) : Keeps untouched (setSyncing b : Act ε (SyncEngine κ σ) Unit) := fun _ => rfl

theorem keeps_leave (b : Bool) : Keeps untouched (leave b : Act ε (SyncEngine κ σ) Bool) := fun _ => rfl

theorem keeps_headOf (peer : SyncPeer) : Keeps untouched (node.headOf peer) := by
  unfold headOf
  split
  · exact keeps_bind (keeps_onChain _) fun _ => keeps_pure _
  · exact keeps_pure _

theorem keeps_headsOf (peers : List SyncPeer) : Keeps untouched (node.headsOf peers) := by
  induction peers with
  | nil => exact keeps_pure _
  | cons peer rest ih =>
    unfold headsOf
    refine keeps_bind (keeps_headOf peer) fun _ => ?_
    exact keeps_bind ih fun _ => keeps_pure _

theorem keeps_requestHeads : Keeps untouched node.requestHeads := by
  unfold requestHeads collectP2pPeers
  refine keeps_bind (keeps_bind (keeps_onWorld _) fun _ => ?_) keeps_headsOf
  exact keeps_bind (keeps_read _) fun _ => keeps_pure _

theorem keeps_selectFrom (best : Option String × Int × Int) (heads : List PeerHead) :
    Keeps untouched (node.selectFrom best heads) := by
  induction heads generalizing best with
  | nil => exact keeps_pure _
  | cons head rest ih =>
    unfold selectFrom
    refine keeps_bind ?_ fun _ => ih _
    unfold weightOf
    split
    · exact keeps_onWorld _
    · exact keeps_pure _

theorem keeps_nodeGetBlock (hash : String) : Keeps untouched (node.nodeGetBlock hash) := by
  unfold nodeGetBlock
  refine keeps_bind (keeps_onChain _) fun found => ?_
  cases found with
  | none => exact keeps_onWorld _
  | some b => exact keeps_pure _

theorem keeps_lookup (hash : String) : Keeps untouched (node.lookup hash) := by
  unfold lookup resolveBlock
  refine keeps_bind (keeps_onChain _) fun found => ?_
  cases found with
  | none =>
    refine keeps_bind (keeps_nodeGetBlock hash) fun found => ?_
    cases found with
    | none => exact keeps_nodeGetBlock hash
    | some b => exact keeps_pure _
  | some b => exact keeps_pure _

theorem keeps_walk (stop : Int) (room : Nat) (current : String) (seen : List String) :
    Keeps untouched (node.walk stop room current seen) := by
  induction room generalizing current seen with
  | zero => exact keeps_pure _
  | succ room ih =>
    unfold walk
    split
    · exact keeps_pure _
    · refine keeps_bind (keeps_lookup current) fun found => ?_
      cases found with
      | none => exact keeps_pure _
      | some block =>
        refine keeps_ite (fun _ => keeps_pure _) fun _ => ?_
        exact keeps_bind (ih _ _) fun _ => keeps_pure _

theorem keeps_downloadChain (head : String) (stop : Int) : Keeps untouched (node.downloadChain head stop) :=
  keeps_bind (keeps_walk _ _ _ _) fun _ => keeps_pure _

theorem keeps_validate (chain : List SyncBlock) (localHeight : Int) :
    Keeps untouched (node.validateDownloadedChain chain localHeight) := by
  unfold validateDownloadedChain
  split
  · exact keeps_pure _
  · exact keeps_bind (keeps_onChain _) fun _ => keeps_pure _

/-! ## The imports extend the tip -/

def ExtendsTip (node : SyncNode ε κ σ) (chain : κ) (blocks : List SyncBlock) : Prop :=
  blocks = [] ∨ ∃ h tip, node.getHeight chain = .ok h ∧ node.getBlock h chain = .ok tip ∧
    TipExtension ((tip.map SyncBlock.hash).getD "") h blocks

def Safe (node : SyncNode ε κ σ) (s t : SyncEngine κ σ) : Prop :=
  ∃ blocks, t.imports = s.imports ++ blocks ∧ node.ExtendsTip s.chain blocks

variable {s t u : SyncEngine κ σ}

theorem Safe.of_same (h : t.imports = s.imports) : node.Safe s t := ⟨[], by rw [h, List.append_nil], .inl rfl⟩

theorem Safe.of_untouched (h : untouched.rel s t) : node.Safe s t := .of_same (congrArg Prod.snd h)

theorem Safe.after (h : untouched.rel s t) (hs : node.Safe t u) : node.Safe s u := by
  obtain ⟨blocks, himports, hextends⟩ := hs
  have hchain : t.chain = s.chain := congrArg Prod.fst h
  have hsame : t.imports = s.imports := congrArg Prod.snd h
  exact ⟨blocks, hsame ▸ himports, hchain ▸ hextends⟩

/-- The rule for what comes after a part that leaves chain and imports alone. -/
theorem safe_bind {α β : Type} {m : Act ε (SyncEngine κ σ) α} {k : α → Act ε (SyncEngine κ σ) β} (hm : Keeps untouched m)
    (hk : ∀ a t, m s = (.ok a, t) → t.chain = s.chain → node.Safe t (k a t).2) : node.Safe s ((m >>= k) s).2 := by
  have hframe := hm s
  rw [bind_run]
  rcases hr : m s with ⟨e | a, t⟩
  · rw [hr] at hframe
    exact .of_untouched hframe
  · rw [hr] at hframe
    exact Safe.after hframe (hk a t hr (congrArg Prod.fst hframe))

theorem imports_importAll (blocks : List SyncBlock) (i : Nat) (s : SyncEngine κ σ) :
    ∃ done, done <+: blocks ∧ (node.importAll i blocks s).2.imports = s.imports ++ done := by
  induction blocks generalizing i s with
  | nil => exact ⟨[], List.nil_prefix, (List.append_nil _).symm⟩
  | cons block rest ih =>
    have hone : (node.importOne block s).2.imports = s.imports ++ [block] := rfl
    have hfirst : [block] <+: block :: rest := ⟨rest, rfl⟩
    unfold importAll
    rw [bind_run]
    rcases hr : node.importOne block s with ⟨e | ok, t⟩
    · rw [hr] at hone
      exact ⟨[block], hfirst, hone⟩
    · rw [hr] at hone
      cases ok with
      | false => exact ⟨[block], hfirst, hone⟩
      | true =>
        obtain ⟨done, hprefix, himports⟩ := ih (i + 1) { t with syncProgress := i + 1 }
        refine ⟨block :: done, (List.cons_prefix_cons).mpr ⟨rfl, hprefix⟩, ?_⟩
        refine himports.trans ?_
        show t.imports ++ done = _
        rw [hone, List.append_assoc]
        rfl

theorem keeps_finish (head : String) (result : Bool) : Keeps noImport (node.finish head result) := by
  unfold finish setBestHead
  refine keeps_bind ?_ fun _ => ?_
  · split
    · exact keeps_onNode _
    · exact keeps_pure _
  · refine keeps_bind (keeps_onNode _) fun _ => ?_
    refine keeps_bind (fun _ => rfl) fun _ => ?_
    exact keeps_bind (fun _ => rfl) fun _ => keeps_pure _

theorem safe_importDownloaded (head : String) (bestPeerH : Int) {localH : Int} (toImport : List SyncBlock)
    (hheight : node.getHeight s.chain = .ok localH) :
    node.Safe s (node.importDownloaded head bestPeerH localH toImport s).2 := by
  unfold importDownloaded
  refine safe_bind (keeps_validate _ _) fun valid t hvalid hchain => ?_
  cases valid with
  | false => exact .of_untouched (keeps_leave false t)
  | true =>
    have hextends : toImport = [] ∨ ∃ tip, node.getBlock localH t.chain = .ok tip ∧
        TipExtension ((tip.map SyncBlock.hash).getD "") localH toImport := by
      unfold validateDownloadedChain at hvalid
      by_cases hnil : toImport = []
      · exact .inl hnil
      · rw [if_neg hnil] at hvalid
        obtain ⟨tip, u, htip, hcont⟩ := bind_ok.mp hvalid
        obtain ⟨hread, rfl⟩ := Prod.mk.inj htip
        obtain ⟨hresult, rfl⟩ := Prod.mk.inj hcont
        exact .inr ⟨tip, hread, (contiguous_iff _ _ _).mp (Except.ok.inj hresult)⟩
    obtain ⟨done, hprefix, himports⟩ := @imports_importAll _ _ _ node toImport 0 t
    refine ⟨done, ?_, ?_⟩
    · show ((node.importAll 0 toImport >>= _) t).2.imports = _
      rw [← himports]
      refine rel_tail (F := noImport) (fun ok => ?_) t
      cases ok with
      | false => exact fun _ => rfl
      | true => exact keeps_finish _ _
    · rcases hextends with hnil | ⟨tip, htip, hextends⟩
      · rw [hnil] at hprefix
        exact .inl (List.prefix_nil.mp hprefix)
      · rw [hchain] at htip ⊢
        exact .inr ⟨localH, tip, hheight, htip, hextends.of_prefix hprefix⟩

theorem safe_syncTo (head : String) (bestPeerH : Int) {localH : Int} (targetH : Option Int)
    (hheight : node.getHeight s.chain = .ok localH) : node.Safe s (node.syncTo head bestPeerH localH targetH s).2 := by
  have hleave : Keeps noImport (leave true : Act ε (SyncEngine κ σ) Bool) := fun _ => rfl
  have hstate : ∀ t : SyncEngine κ σ, node.Safe t ((onNode node.syncState >>= fun _ => leave true) t).2 := fun t =>
    .of_same (keeps_bind (keeps_onNode _) (fun _ => hleave) t)
  unfold syncTo
  by_cases hhead : bestPeerH ≤ localH
  · rw [if_pos hhead]
    exact hstate s
  · rw [if_neg hhead]
    refine safe_bind (keeps_downloadChain _ _) fun chain t _ hchain => ?_
    by_cases hnil : chain = []
    · rw [if_pos hnil]
      exact .of_untouched (keeps_leave false t)
    · rw [if_neg hnil]
      by_cases hnew : newBlocks chain localH targetH = []
      · rw [if_pos hnew]
        exact hstate t
      · rw [if_neg hnew]
        apply safe_importDownloaded
        rw [hchain]
        exact hheight

theorem safe_fastSync (targetBlock : Int) (s : SyncEngine κ σ) : node.Safe s (node.fastSync targetBlock s).2 := by
  unfold fastSync
  refine safe_bind (keeps_read _) fun syncing t _ _ => ?_
  cases syncing with
  | true => exact .of_same rfl
  | false =>
    rw [if_neg Bool.false_ne_true]
    refine safe_bind (keeps_onChain _) fun localH u hheight _ => ?_
    obtain ⟨hread, rfl⟩ := Prod.mk.inj hheight
    refine safe_bind (keeps_setSyncing _) fun _ v _ hv => ?_
    refine safe_bind keeps_requestHeads fun heads w _ hw => ?_
    by_cases hnil : heads = []
    · rw [if_pos hnil]
      exact .of_untouched (keeps_leave false w)
    · rw [if_neg hnil]
      refine safe_bind (keeps_selectFrom _ _) fun best x _ hx => ?_
      have hnow : node.getHeight x.chain = .ok localH := by
        rw [hx, hw, hv]
        exact hread
      cases best with
      | none => exact .of_untouched (keeps_leave false x)
      | some head =>
        dsimp only
        split
        · exact safe_syncTo _ _ _ hnow
        · exact safe_syncTo _ _ _ hnow

/-! ## The flag -/

/-- A part that returns with the flag down. -/
def Leaves (m : Act ε (SyncEngine κ σ) Bool) : Prop := ∀ s b t, m s = (.ok b, t) → t.isSyncing = false

theorem leaves_leave (b : Bool) : Leaves (leave b : Act ε (SyncEngine κ σ) Bool) := by
  intro s b' t h
  cases h
  rfl

theorem leaves_bind {α : Type} {m : Act ε (SyncEngine κ σ) α} {k : α → Act ε (SyncEngine κ σ) Bool}
    (hk : ∀ a, Leaves (k a)) : Leaves (m >>= k) := by
  intro s b t h
  obtain ⟨a, u, -, h⟩ := bind_ok.mp h
  exact hk a u b t h

theorem leaves_ite {p : Prop} [Decidable p] {m n : Act ε (SyncEngine κ σ) Bool} (hm : Leaves m) (hn : Leaves n) :
    Leaves (if p then m else n) := by
  split
  · exact hm
  · exact hn

theorem leaves_finish (head : String) (result : Bool) : Leaves (node.finish head result) := by
  refine leaves_bind fun _ => leaves_bind fun _ => ?_
  intro s b t h
  obtain ⟨_, u, hset, h⟩ := bind_ok.mp h
  obtain ⟨_, v, hread, h⟩ := bind_ok.mp h
  cases h
  have hsame : t = u := (congrArg Prod.snd hread).symm
  have hflag : u = { s with isSyncing := false } := (congrArg Prod.snd hset).symm
  rw [hsame, hflag]

theorem leaves_syncTo (head : String) (bestPeerH localH : Int) (targetH : Option Int) :
    Leaves (node.syncTo head bestPeerH localH targetH) := by
  have hstate : Leaves (onNode node.syncState >>= fun _ => leave true : Act ε (SyncEngine κ σ) Bool) :=
    leaves_bind fun _ => leaves_leave true
  refine leaves_ite hstate (leaves_bind fun chain => leaves_ite (leaves_leave _) (leaves_ite hstate ?_))
  refine leaves_bind fun valid => leaves_ite (leaves_bind fun ok => ?_) (leaves_leave _)
  exact leaves_ite (leaves_finish _ _) (leaves_leave _)

theorem leaves_fastSync (targetBlock : Int) {s t : SyncEngine κ σ} {b : Bool} (hs : s.isSyncing = false)
    (h : node.fastSync targetBlock s = (.ok b, t)) : t.isSyncing = false := by
  unfold fastSync at h
  rw [bind_run, read_run, hs] at h
  refine leaves_bind (fun localH => ?_) s b t h
  refine leaves_bind fun _ => leaves_bind fun heads => leaves_ite (leaves_leave _) (leaves_bind fun best => ?_)
  cases best with
  | none => exact leaves_leave _
  | some head => exact leaves_ite (leaves_syncTo _ _ _ _) (leaves_syncTo _ _ _ _)

theorem fastSync_busy (targetBlock : Int) {s : SyncEngine κ σ} (hs : s.isSyncing = true) :
    node.fastSync targetBlock s = (.ok false, s) := by
  unfold fastSync
  rw [bind_run, read_run, hs]
  rfl

/-! ## An honest head -/

def Imports (node : SyncNode ε κ σ) : List SyncBlock → κ × σ → Prop
  | [], _ => True
  | block :: rest, r => ∃ r', node.importBlock block r = (.ok true, r') ∧ Imports node rest r'

/-- The tip is found at its height and under its hash. Every missing block is found under its hash and can be
imported after those before it, the selected head is the last of them, and the calls around the import return. -/
structure HonestHead (node : SyncNode ε κ σ) (s : SyncEngine κ σ) (h : Int) (tip : SyncBlock) (missing : List SyncBlock) :
    Prop where
  height : node.getHeight s.chain = .ok h
  tipAt : node.getBlock h s.chain = .ok (some tip)
  tipFound : node.getBlockByHash tip.hash s.chain = .ok (some tip)
  tipHeight : tip.height = h
  tipHash : tip.hash ≠ ""
  extends' : TipExtension tip.hash h missing
  resolvable : ∀ b ∈ missing, ∀ t : SyncEngine κ σ, t.chain = s.chain → ∃ u, node.lookup b.hash t = (.ok (some b), u)
  importable : ∀ w, node.Imports missing (s.chain, w)
  selected : ∃ heads t u, node.requestHeads { s with isSyncing := true } = (.ok heads, t) ∧ heads ≠ [] ∧
    maxHeight heads = h + missing.length ∧ node.selectBestHead heads t = (.ok (some (headHash tip.hash missing)), u)
  setHeadReturns : ∀ setHead, node.setHead = some setHead → ∀ hash r, ∃ r', setHead hash r = (.ok (), r')
  syncStateReturns : ∀ r, ∃ b r', node.syncState r = (.ok b, r')
  heightReturns : ∀ k, ∃ n, node.getHeight k = .ok n

variable {h : Int} {tip : SyncBlock} {missing : List SyncBlock}

theorem HonestHead.hash_inj (hh : node.HonestHead s h tip missing) {b b' : SyncBlock} (hb : b ∈ missing) (hb' : b' ∈ missing)
    (hhash : b.hash = b'.hash) : b = b' := by
  obtain ⟨u, hu⟩ := hh.resolvable b hb s rfl
  obtain ⟨u', hu'⟩ := hh.resolvable b' hb' s rfl
  rw [hhash, hu'] at hu
  exact (Option.some.inj (Except.ok.inj (congrArg Prod.fst hu))).symm

theorem walk_honest (hh : node.HonestHead s h tip missing) {blocks : List SyncBlock} (hp : blocks <+: missing) (room : Nat)
    (seen : List String) (t : SyncEngine κ σ) (ht : t.chain = s.chain) (hseen : ∀ b ∈ blocks, b.hash ∉ seen) :
    ∃ u, node.walk h room (headHash tip.hash blocks) seen t = (.ok (blocks.reverse.take room), u) ∧ untouched.rel t u := by
  have hkeeps := @keeps_walk _ _ _ node h room (headHash tip.hash blocks) seen t
  suffices hres : (node.walk h room (headHash tip.hash blocks) seen t).1 = .ok (blocks.reverse.take room) from
    ⟨_, Prod.ext hres rfl, hkeeps⟩
  clear hkeeps
  induction blocks using List.reverseRecOn generalizing room seen t with
  -- the walk has come down to the tip of the chain
  | nil =>
    cases room with
    | zero => rfl
    | succ room =>
      unfold walk
      by_cases hstop : headHash tip.hash [] = "" ∨ headHash tip.hash [] ∈ seen
      · rw [if_pos hstop]
        rfl
      · rw [if_neg hstop]
        have hfound : onChain (node.getBlockByHash tip.hash) t = (.ok (some tip), t) := by
          unfold onChain
          rw [ht, hh.tipFound]
        have htip : node.lookup tip.hash t = (.ok (some tip), t) := by
          unfold lookup
          rw [bind_of_ok hfound]
          rfl
        rw [show headHash tip.hash [] = tip.hash from rfl, bind_of_ok htip]
        dsimp only
        rw [if_pos hh.tipHeight.le]
        rfl
  -- it takes the highest block and goes on below it
  | append_singleton blocks b ih =>
    cases room with
    | zero => rfl
    | succ room =>
      have hb : b ∈ missing := hp.subset (List.mem_append_right _ (List.mem_singleton_self b))
      have hp' : blocks <+: missing := (List.prefix_append blocks [b]).trans hp
      have hnext := ((hh.extends'.of_prefix hp).tail).2.2.1 ((hh.extends'.of_prefix hp').headHash_ne_empty hh.tipHash)
      obtain ⟨u, hu⟩ := hh.resolvable b hb t ht
      have hchain : u.chain = s.chain := by
        have hframe := keeps_apply (@keeps_lookup _ _ _ node b.hash) hu
        exact (congrArg Prod.fst hframe).trans ht
      -- none of those below has been seen
      have hfresh : ∀ c ∈ blocks, c.hash ∉ b.hash :: seen := by
        intro c hc hmem
        rcases List.mem_cons.mp hmem with hsame | hold
        · have heq := hh.hash_inj (hp'.subset hc) hb hsame
          have hbelow := (hh.extends'.of_prefix hp').below hc
          have habove := (hh.extends'.of_prefix hp).tail.2.1
          rw [heq] at hbelow
          omega
        · exact hseen c (List.mem_append_left _ hc) hold
      have hrest := ih hp' room (b.hash :: seen) u hchain hfresh
      unfold walk
      rw [headHash_concat, if_neg (not_or.mpr ⟨hh.extends'.hash_ne_empty hb,
        hseen b (List.mem_append_right _ (List.mem_singleton_self b))⟩), bind_of_ok hu]
      dsimp only
      rw [if_neg (not_le.mpr (hh.extends'.above hb)), hnext, List.reverse_append, List.reverse_singleton,
        List.singleton_append, List.take_succ_cons]
      rw [bind_run]
      rcases hr : node.walk h room (headHash tip.hash blocks) (b.hash :: seen) u with ⟨e | l, v⟩
      · rw [hr] at hrest
        cases hrest
      · rw [hr] at hrest
        rw [Except.ok.inj hrest]
        rfl

theorem newBlocks_eq {blocks : List SyncBlock} (habove : ∀ b ∈ blocks, h < b.height)
    (hsorted : blocks.Pairwise fun a b => a.height ≤ b.height) : newBlocks blocks h none = blocks := by
  have hall : blocks.filter (fun block => decide (h < block.height ∧ ∀ k ∈ (none : Option Int), block.height ≤ k)) = blocks :=
    List.filter_eq_self.mpr fun b hb => decide_eq_true ⟨habove b hb, fun _ hk => nomatch hk⟩
  unfold newBlocks sortedBy
  rw [hall]
  exact hsorted.insertionSort_eq

theorem importAll_ok {blocks : List SyncBlock} (i : Nat) {t : SyncEngine κ σ} (hi : node.Imports blocks (t.chain, t.world)) :
    ∃ u, node.importAll i blocks t = (.ok true, u) ∧ u.imports = t.imports ++ blocks := by
  induction blocks generalizing i t with
  | nil => exact ⟨t, rfl, (List.append_nil _).symm⟩
  | cons b rest ih =>
    obtain ⟨r, hr, hrest⟩ := hi
    let v : SyncEngine κ σ := { t with imports := t.imports ++ [b], chain := r.1, world := r.2 }
    have hone : node.importOne b t = (.ok true, v) := by
      show onNode (node.importBlock b) { t with imports := t.imports ++ [b] } = _
      dsimp only [onNode]
      rw [hr]
    obtain ⟨u, hu, himports⟩ := ih (i + 1) (t := { v with syncProgress := i + 1 }) hrest
    refine ⟨u, ?_, ?_⟩
    · unfold importAll
      rw [bind_of_ok hone, if_pos rfl]
      exact hu
    · rw [himports]
      show t.imports ++ [b] ++ rest = _
      rw [List.append_assoc]
      rfl

theorem finish_ok (hh : node.HonestHead s h tip missing) (head : String) (result : Bool) (t : SyncEngine κ σ) :
    ∃ u, node.finish head result t = (.ok result, u) ∧ u.imports = t.imports := by
  have hset : ∃ u, node.setBestHead head t = (.ok (), u) := by
    unfold setBestHead
    cases hhead : node.setHead with
    | none => exact ⟨t, rfl⟩
    | some setHead =>
      obtain ⟨r, hr⟩ := hh.setHeadReturns setHead hhead head (t.chain, t.world)
      refine ⟨{ t with chain := r.1, world := r.2 }, ?_⟩
      dsimp only [onNode]
      rw [hr]
  obtain ⟨u, hu⟩ := hset
  obtain ⟨b, r, hr⟩ := hh.syncStateReturns (u.chain, u.world)
  have hstate : onNode node.syncState u = (.ok b, { u with chain := r.1, world := r.2 }) := by
    dsimp only [onNode]
    rw [hr]
  obtain ⟨n, hn⟩ := hh.heightReturns r.1
  let v : SyncEngine κ σ := { u with chain := r.1, world := r.2, isSyncing := false }
  have hlast : onChain node.getHeight v = (.ok n, v) := by
    unfold onChain
    rw [hn]
  have hrun : node.finish head result t = (.ok result, v) := by
    unfold finish
    rw [bind_of_ok hu, bind_of_ok hstate]
    show (onChain node.getHeight >>= fun _ => pure result) v = _
    rw [bind_of_ok hlast]
    rfl
  refine ⟨v, hrun, ?_⟩
  have hkeeps : (node.finish head result t).2.imports = t.imports := keeps_finish head result t
  rw [hrun] at hkeeps
  exact hkeeps

theorem importDownloaded_honest (hh : node.HonestHead s h tip missing) (head : String) (best : Int) {t : SyncEngine κ σ}
    (ht : t.chain = s.chain) {room : Nat} (hroom : 0 < room) (hsome : missing ≠ []) :
    ∃ u, node.importDownloaded head best h (missing.drop (missing.length - room)) t =
        (.ok (decide (missing.length ≤ room)), u) ∧
      u.imports = t.imports ++ if missing.length ≤ room then missing else [] := by
  have hlength := List.length_pos_of_ne_nil hsome
  have hrest : missing.drop (missing.length - room) ≠ [] := by
    apply List.ne_nil_of_length_pos
    rw [List.length_drop]
    omega
  have hread : onChain (node.getBlock h) t = (.ok (some tip), t) := by
    unfold onChain
    rw [ht, hh.tipAt]
  have hvalid : node.validateDownloadedChain (missing.drop (missing.length - room)) h t =
      (.ok (contiguous tip.hash h (missing.drop (missing.length - room))), t) := by
    unfold validateDownloadedChain
    rw [if_neg hrest, bind_of_ok hread]
    rfl
  unfold importDownloaded
  rw [bind_of_ok hvalid]
  by_cases hfits : missing.length ≤ room
  · rw [Nat.sub_eq_zero_of_le hfits, List.drop_zero, if_pos ((contiguous_iff _ _ _).mpr hh.extends'), if_pos hfits,
      decide_eq_true hfits]
    obtain ⟨u, hu, himports⟩ := @importAll_ok _ _ _ node missing 0 t (ht ▸ hh.importable t.world)
    have hdone : decide (0 < missing.length ∨ best ≤ h) = true := decide_eq_true (.inl hlength)
    obtain ⟨v, hv, hsame⟩ := finish_ok hh head true u
    rw [bind_of_ok hu, if_pos rfl, hdone]
    exact ⟨v, hv, hsame.trans himports⟩
  · have hbroken : ¬ contiguous tip.hash h (missing.drop (missing.length - room)) = true := by
      intro hcont
      have hsplit := hh.extends'
      rw [← List.take_append_drop (missing.length - room) missing] at hsplit
      obtain ⟨b, rest, hb⟩ := List.exists_cons_of_ne_nil hrest
      rw [contiguous_iff, hb] at hcont
      have hlate := hsplit.tail
      rw [hb] at hlate
      have hsame := hlate.2.1.symm.trans hcont.2.1
      rw [List.length_take] at hsame
      omega
    rw [if_neg hbroken, if_neg hfits, decide_eq_false hfits, List.append_nil]
    exact ⟨_, rfl, rfl⟩

theorem syncTo_honest (hh : node.HonestHead s h tip missing) {t : SyncEngine κ σ} (ht : untouched.rel s t) :
    ∃ u, node.syncTo (headHash tip.hash missing) (h + missing.length) h none t = (.ok (decide (missing.length ≤ 10001)), u) ∧
      u.imports = s.imports ++ if missing.length ≤ 10001 then missing else [] := by
  have hchain : t.chain = s.chain := congrArg Prod.fst ht
  have hsame : t.imports = s.imports := congrArg Prod.snd ht
  unfold syncTo
  by_cases hnone : missing = []
  · subst hnone
    obtain ⟨b, r, hr⟩ := hh.syncStateReturns (t.chain, t.world)
    have hstate : onNode node.syncState t = (.ok b, { t with chain := r.1, world := r.2 }) := by
      dsimp only [onNode]
      rw [hr]
    rw [if_pos (by simp), bind_of_ok hstate]
    refine ⟨_, rfl, ?_⟩
    show t.imports = _
    rw [hsame]
    simp
  · have hlength := List.length_pos_of_ne_nil hnone
    obtain ⟨u, hu, hframe⟩ := walk_honest hh (List.prefix_refl missing) 10001 [] t hchain fun _ _ => List.not_mem_nil
    have hdownload : node.downloadChain (headHash tip.hash missing) h t =
        (.ok (missing.drop (missing.length - 10001)), u) := by
      unfold downloadChain
      rw [bind_of_ok hu, pure_run, List.reverse_take, List.reverse_reverse, List.length_reverse]
    have hrest : missing.drop (missing.length - 10001) ≠ [] := by
      apply List.ne_nil_of_length_pos
      rw [List.length_drop]
      omega
    have hsub : (missing.drop (missing.length - 10001)).Sublist missing := List.drop_sublist _ _
    have hnew : newBlocks (missing.drop (missing.length - 10001)) h none = missing.drop (missing.length - 10001) :=
      newBlocks_eq (fun b hb => hh.extends'.above (hsub.subset hb)) (hh.extends'.sorted.sublist hsub)
    rw [if_neg (by omega), bind_of_ok hdownload, if_neg hrest, hnew, if_neg hrest]
    have hchain' : u.chain = s.chain := (congrArg Prod.fst hframe).trans hchain
    obtain ⟨v, hv, himports⟩ := importDownloaded_honest hh (headHash tip.hash missing) (h + missing.length) hchain'
      (Nat.succ_pos 10000) hnone
    refine ⟨v, hv, himports.trans ?_⟩
    have hsame' : u.imports = s.imports := (congrArg Prod.snd hframe).trans hsame
    rw [hsame']

theorem fastSync_honest (hh : node.HonestHead s h tip missing) (hs : s.isSyncing = false) :
    ∃ u, node.fastSync 0 s = (.ok (decide (missing.length ≤ 10001)), u) ∧
      u.imports = s.imports ++ if missing.length ≤ 10001 then missing else [] := by
  obtain ⟨heads, t, u, hheads, hne, hmax, hselect⟩ := hh.selected
  have hheight : onChain node.getHeight s = (.ok h, s) := by
    unfold onChain
    rw [hh.height]
  have hframe : untouched.rel s u := by
    have hfirst := keeps_apply (@keeps_requestHeads _ _ _ node) hheads
    have hsecond := keeps_apply (@keeps_selectFrom _ _ _ node (none, -1, -1) heads) hselect
    exact untouched.trans (a := s) hfirst hsecond
  unfold fastSync
  rw [bind_run, read_run, hs]
  dsimp only
  rw [if_neg Bool.false_ne_true, bind_of_ok hheight]
  show ∃ v, (node.requestHeads >>= _) { s with isSyncing := true } = _ ∧ _
  rw [bind_of_ok hheads, if_neg hne, bind_of_ok hselect]
  dsimp only
  rw [if_neg (lt_irrefl _), hmax]
  exact syncTo_honest hh hframe

/-- Whatever the node answers, only an extension of the tip is imported, and a synchronisation that returns leaves
the flag down, unless another one holds it. Up to 10001 blocks up to an honest head are imported, more are not. -/
theorem fast_sync_extends_tip (node : SyncNode ε κ σ) (targetBlock : Int) (s : SyncEngine κ σ) :
    node.Safe s (node.fastSync targetBlock s).2 ∧
    (s.isSyncing = true → node.fastSync targetBlock s = (.ok false, s)) ∧
    (s.isSyncing = false →
      (∀ b t, node.fastSync targetBlock s = (.ok b, t) → t.isSyncing = false) ∧
      ∀ h tip missing, node.HonestHead s h tip missing →
        ∃ t, node.fastSync 0 s = (.ok (decide (missing.length ≤ 10001)), t) ∧
          t.imports = s.imports ++ if missing.length ≤ 10001 then missing else []) :=
  ⟨safe_fastSync targetBlock s, fastSync_busy targetBlock, fun hs =>
    ⟨fun _ _ => leaves_fastSync targetBlock hs, fun _ _ _ hh => fastSync_honest hh hs⟩⟩

/-! ### A node with its genesis block only -/

def unaryHash (k : Nat) : String := String.ofList (List.replicate (k + 1) 'x')

def unaryBlock (k : Nat) : SyncBlock :=
  { dict := { height := some k, hash := some (unaryHash k), parentHash := some (String.ofList (List.replicate k 'x')) }
    parent := none }

def farNode (n : Nat) : SyncNode Unit Unit Unit where
  getHeight _ := .ok 0
  getBlock _ _ := .ok (some (unaryBlock 0))
  getBlockByHash hash _ := .ok (if hash = unaryHash 0 then some (unaryBlock 0) else none)
  importBlock _ r := (.ok true, r)
  livePeers w := (.ok [{ head := .text (unaryHash n), height := n }], w)
  fetchBlockFromPeers hash w := (.ok (some (unaryBlock (hash.toList.length - 1))), w)
  getCumulativeWeight := none
  setHead := none
  syncState r := (.ok true, r)

def farEngine : SyncEngine Unit Unit :=
  { peers := [], isSyncing := false, syncProgress := 0, chain := (), world := (), imports := [] }

def farChain (n : Nat) : List SyncBlock := (List.range' 1 n).map unaryBlock

theorem unaryHash_ne_empty (k : Nat) : unaryHash k ≠ "" := by
  intro h
  have hlist := congrArg String.toList h
  rw [unaryHash, String.toList_ofList] at hlist
  cases hlist

theorem unaryHash_inj {j k : Nat} (h : unaryHash j = unaryHash k) : j = k := by
  have hlist := congrArg (fun s => s.toList.length) h
  simp only [unaryHash, String.toList_ofList, List.length_replicate] at hlist
  omega

theorem extends_far (k n : Nat) : TipExtension (unaryHash k) k ((List.range' (k + 1) n).map unaryBlock) := by
  induction n generalizing k with
  | zero => trivial
  | succ n ih =>
    rw [List.range'_succ, List.map_cons]
    refine ⟨unaryHash_ne_empty _, ?_, fun _ => ?_, ih (k + 1)⟩
    · show ((k + 1 : Nat) : Int) = k + 1
      push_cast
      rfl
    · show orElse (unaryHash k) "" = unaryHash k
      exact if_neg (unaryHash_ne_empty k)

theorem headHash_far (k n : Nat) : headHash (unaryHash k) ((List.range' (k + 1) n).map unaryBlock) = unaryHash (k + n) := by
  induction n generalizing k with
  | zero => rfl
  | succ n ih =>
    rw [List.range'_succ, List.map_cons, headHash_cons]
    refine (ih (k + 1)).trans ?_
    congr 1
    omega

theorem lookup_far (n : Nat) {k : Nat} (hk : k ≠ 0) (t : SyncEngine Unit Unit) :
    (farNode n).lookup (unaryHash k) t = (.ok (some (unaryBlock k)), t) := by
  have hmiss : onChain ((farNode n).getBlockByHash (unaryHash k)) t = (.ok none, t) := by
    unfold onChain farNode
    dsimp only
    rw [if_neg fun h => hk (unaryHash_inj h)]
  have hfetch : onWorld ((farNode n).fetchBlockFromPeers (unaryHash k)) t = (.ok (some (unaryBlock k)), t) := by
    unfold onWorld farNode
    dsimp only
    rw [unaryHash, String.toList_ofList, List.length_replicate, Nat.add_sub_cancel]
  have hnode : (farNode n).nodeGetBlock (unaryHash k) t = (.ok (some (unaryBlock k)), t) := by
    unfold nodeGetBlock
    rw [bind_of_ok hmiss]
    exact hfetch
  unfold lookup resolveBlock
  rw [bind_of_ok hmiss]
  dsimp only
  rw [bind_of_ok hnode]
  rfl

theorem imports_far (n : Nat) (blocks : List SyncBlock) (r : Unit × Unit) : (farNode n).Imports blocks r := by
  induction blocks with
  | nil => trivial
  | cons b rest ih => exact ⟨r, rfl, ih⟩

theorem far_honest (n : Nat) : (farNode n).HonestHead farEngine 0 (unaryBlock 0) (farChain n) where
  height := rfl
  tipAt := rfl
  tipFound := rfl
  tipHeight := rfl
  tipHash := unaryHash_ne_empty 0
  extends' := extends_far 0 n
  resolvable b hb t _ := by
    obtain ⟨k, hk, rfl⟩ := List.mem_map.mp hb
    have hpos : k ≠ 0 := by
      have hrange := (List.mem_range'_1.mp hk).1
      omega
    exact ⟨t, lookup_far n hpos t⟩
  importable w := imports_far n _ _
  selected := by
    have hlength : (farChain n).length = n := by
      unfold farChain
      rw [List.length_map, List.length_range']
    have hhead : headHash (unaryBlock 0).hash (farChain n) = unaryHash n := by
      refine (headHash_far 0 n).trans ?_
      rw [Nat.zero_add]
    let t : SyncEngine Unit Unit := { farEngine with isSyncing := true }
    have hreport : (farNode n).headOf { head := .text (unaryHash n), height := n } t = (.ok (unaryHash n), t) := by
      unfold headOf
      rw [if_neg fun h => unaryHash_ne_empty n h.1]
      rfl
    have hheads : (farNode n).requestHeads t = (.ok [{ hash := unaryHash n, height := n }], t) := by
      show (farNode n).headsOf [{ head := .text (unaryHash n), height := n }] t = _
      unfold headsOf
      rw [bind_of_ok hreport]
      show ((.ok (if unaryHash n = "" then [] else _), t) : Except Unit _ × _) = _
      rw [if_neg (unaryHash_ne_empty n)]
    refine ⟨_, t, t, hheads, List.cons_ne_nil _ _, ?_, ?_⟩
    · rw [hlength]
      show max (n : Int) n = 0 + n
      rw [max_self, zero_add]
    · rw [hhead]
      rfl
  setHeadReturns _ h := nomatch h
  syncStateReturns r := ⟨true, r, rfl⟩
  heightReturns _ := ⟨0, rfl⟩

theorem fast_sync_catches_up : (farNode 2).HonestHead farEngine 0 (unaryBlock 0) (farChain 2) ∧
    ∃ t, (farNode 2).fastSync 0 farEngine = (.ok true, t) ∧ t.imports = farChain 2 := by
  obtain ⟨-, -, hsync⟩ := fast_sync_extends_tip (farNode 2) 0 farEngine
  exact ⟨far_honest 2, (hsync rfl).2 0 (unaryBlock 0) (farChain 2) (far_honest 2)⟩

/-- A node that is 10002 blocks behind imports nothing. -/
theorem fast_sync_gives_up : (farNode 10002).HonestHead farEngine 0 (unaryBlock 0) (farChain 10002) ∧
    ∃ t, (farNode 10002).fastSync 0 farEngine = (.ok false, t) ∧ t.imports = [] := by
  have hlong : ¬ (farChain 10002).length ≤ 10001 := by
    unfold farChain
    rw [List.length_map, List.length_range']
    omega
  obtain ⟨t, hrun, himports⟩ := fastSync_honest (far_honest 10002) rfl
  rw [decide_eq_false hlong] at hrun
  rw [if_neg hlong] at himports
  exact ⟨far_honest 10002, t, hrun, himports⟩

end SyncNode

end AbsoluteChain
