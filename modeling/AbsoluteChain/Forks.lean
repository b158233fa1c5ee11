import AbsoluteChain.Replay

/-!
# A fork above a first start

Blocks without transactions, announced under the name that passes every proposer check.
Two of them are stored on the genesis block of a first start; the second is rolled back
and another one takes its place.
-/

namespace AbsoluteChain

open Python Actions Act Transactions KeyedTable

namespace Blockchain

/-! ## Blocks without transactions -/

def emptyBlock (height : Int) (parentHash hash : String) : Block :=
  { firstBlock [] with height := height, parentHash := parentHash, miner := "genesis", hash := hash }

structure Extends (n n' : Node) (hash : String) : Prop where
  closed : n'.db.pending = none
  linked : Linked n'.db.live
  tip : n'.db.live.getChainTip = n.db.live.getChainTip + 1
  kept : ∀ k d, n.db.live.getBlock k = some d → n'.db.live.getBlock k = some d
  top : ∃ d, n'.db.live.getBlock (n.db.live.getChainTip + 1) = some d ∧ d.hash = hash

section stacked
variable {c : Blockchain} {now : Int} {n n' : Node} {b b' : Block} {hash : String}

theorem admitBlock_top {last : BlockDict} (hl : Linked n.db.live)
    (hlast : n.db.live.getBlock n.db.live.getChainTip = some last) (hheight : b.height = n.db.live.getChainTip + 1)
    (hparent : b.parentHash = last.hash) (hfits : fitsInt64 b.height = true)
    (hproposer : c.verifyBlockProposer n.db.live n.slashing b = .ok ())
    (hsigned : verifyBlockTxSignatures c.host c.config b.transactions = .ok ()) : c.admitBlock n b = .ok () := by
  have hfree : n.db.live.getBlock b.height = none := hl.none_above (by rw [hheight]; omega)
  have htop : n.db.live.getLastBlock = some last := hl.last.trans hlast
  have hstructure : validateBlockStructure n.db.live b = .ok () := by
    unfold validateBlockStructure
    simp only [htop]
    rw [if_neg (not_not.mpr (by rw [hheight, hl.keyed hlast])), if_neg (not_not.mpr hparent)]
  simp only [admitBlock, check_bind_ok, require_ok, decide_eq_true_eq]
  exact ⟨hfits, hfree, hstructure, hproposer, hsigned⟩

theorem emptyBlock_accepted {last : BlockDict} (hclosed : n.db.pending = none) (hl : Linked n.db.live)
    (hlast : n.db.live.getBlock n.db.live.getChainTip = some last) (hfits : fitsInt64 (n.db.live.getChainTip + 1) = true) :
    ∃ b' n', c.addBlock now (emptyBlock (n.db.live.getChainTip + 1) last.hash hash) true n = (.ok b', n') := by
  have hadm : c.admitBlock n (emptyBlock (n.db.live.getChainTip + 1) last.hash hash) = .ok () :=
    admitBlock_top hl hlast rfl rfl hfits rfl rfl
  have hcolumns : (emptyBlock (n.db.live.getChainTip + 1) last.hash hash).columns.all fitsInt64 = true := by
    have hlist : (emptyBlock (n.db.live.getChainTip + 1) last.hash hash).columns = [n.db.live.getChainTip + 1, 2, 0, 0] := rfl
    have hrest : [2, 0, 0].all fitsInt64 = true := by decide
    rw [hlist, List.all_cons, hfits, hrest]
    rfl
  obtain ⟨b', n₁, hbody⟩ := (@executeBlock_returns c now (emptyBlock (n.db.live.getChainTip + 1) last.hash hash)
    { n with db := n.db.opened } true).mpr ⟨[], n.db.opened, rfl, fun _ hroot => absurd rfl hroot, .inr (.inl rfl), hcolumns,
      fun tx htx => absurd htx List.not_mem_nil⟩
  exact ⟨b', _, addBlock_accepted hadm hclosed hbody⟩

theorem addBlock_call {preserve : Bool} {r : Except Fault Block} (h : c.addBlock now b preserve n = (r, n')) :
    (Call.addBlock now b preserve).run c n = n' := congrArg Prod.snd h

theorem reorg_call {floor height : Int} {r : Except Fault Unit} {db : Db}
    (h : c.reorgToAncestor now floor height n.db = (r, db)) :
    (Call.reorgToAncestor now floor height).run c n = { n with db := db } :=
  congrArg (fun r : Except Fault Unit × Db => ({ n with db := r.2 } : Node)) h

theorem accepted_extends (hl : Linked n.db.live) (h : c.addBlock now b true n = (.ok b', n')) (hhash : b.hash ≠ "")
    (hfresh : Fresh n b.hash) : Extends n n' b.hash := by
  obtain ⟨r⟩ := addBlock_ok h
  have hsame : b'.hash = b.hash := by
    rw [r.hash_eq]
    exact if_pos ⟨rfl, hhash⟩
  have hfresh' : Fresh n b'.hash := hsame ▸ hfresh
  obtain ⟨hlinked, hkept⟩ := accepted_linked hl h hfresh'
  obtain ⟨htip, htop⟩ := accepted_tip hl h hfresh'
  exact ⟨by rw [r.result], hlinked, htip, hkept, b'.toDict, htop, hsame⟩

theorem emptyBlock_replayable {height : Int} {parentHash : String} (hfresh : Fresh n hash) (hhash : hash ≠ "") :
    c.Replayable now (emptyBlock height parentHash hash) true n where
  fresh b' n' h := by
    obtain ⟨r⟩ := addBlock_ok h
    have hsame : b'.hash = hash := by
      rw [r.hash_eq]
      exact if_pos ⟨rfl, hhash⟩
    exact hsame ▸ hfresh
  named tx htx := absurd htx List.not_mem_nil
  ordinary tx htx := absurd htx List.not_mem_nil
  silent := trivial
  unburned := .inr (le_of_eq rfl)

theorem Extends.fresh {other : String} (h : Extends n n' hash) (hl : Linked n.db.live) (hfresh : Fresh n other)
    (hne : hash ≠ other) : Fresh n' other := by
  intro k d hd
  have hle := ((h.linked.heights k).mp (by rw [hd]; rfl))
  by_cases hk : k ≤ n.db.live.getChainTip
  · obtain ⟨e, he⟩ := hl.exists_block hle.1 hk
    rw [h.kept k e he] at hd
    exact Option.some.inj hd ▸ hfresh k e he
  · obtain ⟨e, he, hhash⟩ := h.top
    have hk' : k = n.db.live.getChainTip + 1 := by
      rw [h.tip] at hle
      omega
    rw [hk', he] at hd
    rw [← Option.some.inj hd, hhash]
    exact hne

end stacked

/-! ## The fork -/

theorem freshNode_fresh {hash : String} (h : hash.length ≠ 64) : Fresh (freshNode true) hash := by
  intro k d hd heq
  have hd' : (Table.empty.put 0 (plain.genesisBlock 1 true).toDict).get? k = some d := by
    rw [← (freshNode_blocks true).1]
    exact hd
  rw [Table.get_put] at hd'
  by_cases hk : k = 0
  · rw [if_pos hk] at hd'
    have hlen : (plain.genesisBlock 1 true).hash.length = 64 := by
      have hhash : (plain.genesisBlock 1 true).hash = { plain.genesisBlock 1 true with hash := "" }.computeHash := rfl
      rw [hhash]
      exact computeHash_length _
    have hsame : (plain.genesisBlock 1 true).hash = hash := (congrArg BlockDict.hash (Option.some.inj hd')).trans heq
    exact h (hsame ▸ hlen)
  · rw [if_neg hk] at hd'
    cases hd'

theorem freshNode_genesis : Linked (freshNode true).db.live ∧ (freshNode true).db.live.getChainTip = 0 ∧
    (freshNode true).db.live.getBlock 0 = some (plain.genesisBlock 1 true).toDict := by
  obtain ⟨hblocks, -, -⟩ := freshNode_blocks true
  refine ⟨.single hblocks rfl, ?_, ?_⟩
  · unfold Tables.getChainTip
    rw [hblocks]
    rfl
  · unfold Tables.getBlock
    rw [hblocks]
    rfl

def firstCall : Call := .addBlock 2 (emptyBlock 1 (plain.genesisBlock 1 true).hash "b") true

def secondCall (hash : String) : Call := .addBlock 2 (emptyBlock 2 "b" hash) true

def rollback : Call := .reorgToAncestor 3 0 1

structure Forked (n₁ n₂ n₃ n₄ : Node) : Prop where
  first : firstCall.run plain (freshNode true) = n₁
  second : (secondCall "x").run plain n₁ = n₂
  rolled : rollback.run plain n₂ = n₃
  replaced : (secondCall "y").run plain n₃ = n₄
  begun : Extends (freshNode true) n₁ "b"
  longer : Extends n₁ n₂ "x"
  back : Linked n₃.db.live ∧ n₃.db.live.getChainTip = 1 ∧ ∀ k, n₃.db.live.getBlock k = n₁.db.live.getBlock k
  other : Extends n₃ n₄ "y"

theorem forked : ∃ n₁ n₂ n₃ n₄, Forked n₁ n₂ n₃ n₄ := by
  obtain ⟨hl₀, htip₀, hrow₀⟩ := freshNode_genesis
  have hclosed₀ := (freshNode_blocks true).2.1
  have hfresh₀ : ∀ hash, hash ∈ ["b", "x", "y"] → Fresh (freshNode true) hash := fun hash hin =>
    freshNode_fresh fun hlen => absurd hlen (by
      have hall : ∀ h ∈ ["b", "x", "y"], h.length ≠ 64 := by decide
      exact hall hash hin)
  -- the first block
  obtain ⟨b₁, n₁, hrun₁⟩ := @emptyBlock_accepted plain 2 (freshNode true) "b" _ hclosed₀ hl₀
    (by rw [htip₀]; exact hrow₀) (by rw [htip₀]; decide)
  rw [htip₀] at hrun₁
  have h₁ : Extends (freshNode true) n₁ "b" := accepted_extends hl₀ hrun₁ (by decide) (hfresh₀ "b" (by decide))
  have htip₁ : n₁.db.live.getChainTip = 1 := by rw [h₁.tip, htip₀]; rfl
  obtain ⟨d₁, hrow₁, hhash₁⟩ := h₁.top
  rw [htip₀] at hrow₁
  have hfresh₁ : ∀ hash, hash ∈ ["x", "y"] → Fresh n₁ hash := fun hash hin =>
    h₁.fresh hl₀ (hfresh₀ hash (List.mem_cons_of_mem _ hin)) (by
      have hall : ∀ h ∈ ["x", "y"], "b" ≠ h := by decide
      exact hall hash hin)
  -- the second block
  obtain ⟨b₂, n₂, hrun₂⟩ := @emptyBlock_accepted plain 2 n₁ "x" d₁ h₁.closed h₁.linked
    (by rw [htip₁]; exact hrow₁) (by rw [htip₁]; decide)
  rw [htip₁, hhash₁] at hrun₂
  have h₂ : Extends n₁ n₂ "x" := accepted_extends h₁.linked hrun₂ (by decide) (hfresh₁ "x" (by decide))
  have htip₂ : n₂.db.live.getChainTip = 2 := by rw [h₂.tip, htip₁]; rfl
  -- back to the first
  let g : Growth plain 2 :=
    { nodes := fun i => if i = 0 then freshNode true else if i = 1 then n₁ else n₂
      now := fun _ => 2
      block := fun i => if i = 0 then emptyBlock 1 (plain.genesisBlock 1 true).hash "b" else emptyBlock 2 "b" "x"
      preserve := fun _ => true
      stored := fun i => if i = 0 then b₁ else b₂
      accepts := fun i hi => by
        rcases (by omega : i = 0 ∨ i = 1) with rfl | rfl
        · exact hrun₁
        · exact hrun₂ }
  have hs : ∀ i, i < 2 → plain.Replayable (g.now i) (g.block i) (g.preserve i) (g.nodes i) := by
    intro i hi
    rcases (by omega : i = 0 ∨ i = 1) with rfl | rfl
    · exact emptyBlock_replayable (hfresh₀ "b" (by decide)) (by decide)
    · exact emptyBlock_replayable (hfresh₁ "x" (by decide)) (by decide)
  obtain ⟨hg, halloc, -⟩ := @grown_of_genesis plain 2 g plain true 1 (by decide) emptyDb rfl rfl rfl (freshNode_run true) rfl hs
  obtain ⟨db₃, hrun₃, hclosed₃, -, htip₃, hrows₃⟩ := @Grown.replays plain 2 g hg hs halloc 1 (by decide)
    (fun d hd => .inr (by
      rw [hg.blocks 0 (by decide)] at hd
      cases hd
      exact (hg.root hs (by decide)).1)) (by decide) 0 3 (by decide) n₂.db h₂.closed rfl rfl
  have hrow₃ : ∀ k, db₃.live.getBlock k = n₁.db.live.getBlock k := by
    intro k
    rw [hrows₃]
    by_cases hk : k ≤ ((1 : ℕ) : ℤ)
    · rw [if_pos hk]
      show n₂.db.live.getBlock k = _
      by_cases hneg : 0 ≤ k
      · obtain ⟨d, hd⟩ := h₁.linked.exists_block hneg (by rw [htip₁]; exact hk)
        rw [h₂.kept k d hd, hd]
      · rw [h₁.linked.none_below hneg, h₂.linked.none_below hneg]
    · rw [if_neg hk, h₁.linked.none_above (by rw [htip₁]; exact not_le.mp hk)]
  let n₃ : Node := { n₂ with db := db₃ }
  have hl₃ : Linked n₃.db.live := h₂.linked.cut Int.one_nonneg hrows₃
  -- the other second block
  obtain ⟨b₄, n₄, hrun₄⟩ := @emptyBlock_accepted plain 2 n₃ "y" d₁ hclosed₃ hl₃
    (by rw [show n₃.db.live.getChainTip = 1 from htip₃]; exact (hrow₃ 1).trans hrow₁)
    (by rw [show n₃.db.live.getChainTip = 1 from htip₃]; decide)
  rw [show n₃.db.live.getChainTip = 1 from htip₃, hhash₁] at hrun₄
  have hfresh₃ : Fresh n₃ "y" := fun k d hd => hfresh₁ "y" (by decide) k d ((hrow₃ k).symm.trans hd)
  have h₄ : Extends n₃ n₄ "y" := accepted_extends hl₃ hrun₄ (by decide) hfresh₃
  exact ⟨n₁, n₂, n₃, n₄, ⟨addBlock_call hrun₁, addBlock_call hrun₂, reorg_call hrun₃, addBlock_call hrun₄, h₁, h₂,
    ⟨hl₃, htip₃, hrow₃⟩, h₄⟩⟩

end Blockchain

end AbsoluteChain
