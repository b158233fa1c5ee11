import AbsoluteChain.LightClient
import AbsoluteChain.Replay
import AbsoluteChain.Supply
import Mathlib.Tactic.IntervalCases

/-!
# Inclusion proofs of the light client

A proof for a transaction of a stored block is built from JSON texts and compared with a
root of hashes. Such a text is longer than the hash it contains, and starts with a brace.
-/

namespace JsonText

open Python

variable {φ : Type}

/-! ## A text inside a dictionary -/

/-- One of the values is the text. -/
def Fields.HasStr (s : String) : Fields φ → Prop
  | .nil => False
  | .cons _ v t => v = .str s ∨ t.HasStr s

theorem hasStr_insert {s k : String} {v : Json φ} : ∀ {f : Fields φ}, v = .str s ∨ f.HasStr s → (f.insert k v).HasStr s
  | .nil, h => h
  | .cons k' v' t, h => by
    unfold Fields.insert
    by_cases hk : k ≤ k'
    · rw [if_pos hk]
      exact h
    · rw [if_neg hk]
      rcases h with h | h | h
      · exact .inr (hasStr_insert (.inl h))
      · exact .inl h
      · exact .inr (hasStr_insert (.inr h))

theorem hasStr_sortKeys {s : String} : ∀ {f : Fields φ}, f.HasStr s → f.sortKeys.HasStr s
  | .nil, h => h
  | .cons k v t, h => by
    unfold Fields.sortKeys
    rcases h with rfl | h
    · have hkeep : (Json.str s : Json φ).sortKeys = .str s := by
        rw [Json.sortKeys]
        · intro _ h; cases h
        · intro _ h; cases h
      exact hasStr_insert (.inl (by rw [hkeep]))
    · exact hasStr_insert (.inr (hasStr_sortKeys h))

theorem length_quoteTail {st : Style φ} (hE : ∀ c, 1 ≤ (st.escape c).length) : ∀ l : List Char, l.length < (quoteTail st l).length
  | [] => Nat.one_pos
  | c :: t => by
    have htail := length_quoteTail hE t
    have hchar := hE c
    unfold quoteTail
    rw [List.length_append, List.length_cons]
    omega

theorem length_renderFields {st : Style φ} (hE : ∀ c, 1 ≤ (st.escape c).length) {s : String} :
    ∀ {f : Fields φ}, f.HasStr s → s.length + st.itemSep.length < (renderFields st f).length
  | .cons k v t, h => by
    unfold renderFields
    simp only [List.length_append]
    rcases h with rfl | h
    · have hquote := length_quoteTail hE s.toList
      rw [String.length_toList] at hquote
      unfold render quote
      simp only [List.length_cons]
      omega
    · have htail := length_renderFields hE h
      omega

/-- The text of a dictionary is longer than each text in it. -/
theorem length_render_obj {st : Style φ} (hE : ∀ c, 1 ≤ (st.escape c).length) {s : String} :
    ∀ {f : Fields φ}, f.HasStr s → s.length < (render st (.obj f)).length
  | .cons k v t, h => by
    have hlt := length_renderFields hE h
    unfold renderFields at hlt
    unfold render
    simp only [List.length_append, List.length_cons] at hlt ⊢
    omega

theorem one_le_escapeAscii (c : Char) : 1 ≤ (escapeAscii c).length := by
  unfold escapeAscii
  dsimp only
  split
  · exact Nat.succ_pos _
  · split
    · exact le_refl 1
    · split
      · exact Nat.succ_pos _
      · rw [List.length_append]
        exact Nat.le_add_right_of_le (Nat.succ_pos _)

end JsonText

namespace AbsoluteChain

open Python JsonText Actions Actions.Act Transactions KeyedTable HashTree

/-! ## The stored blocks -/

def Written (t : Tables) : Prop := ∀ k d, t.getBlock k = some d → d.height = k ∧ ∃ b : Block, d = b.toDict

theorem Written.congr {t u : Tables} (hw : Written t) (h : u.blocks = t.blocks) : Written u := fun k d hd =>
  hw k d (by rwa [getBlock_congr h] at hd)

theorem Written.put {t : Tables} (hw : Written t) (b : Block) : Written (t.putBlock b.toDict) := by
  intro k d hd
  rw [getBlock_putBlock] at hd
  by_cases hk : k = b.toDict.height
  · rw [if_pos hk] at hd
    obtain rfl := Option.some.inj hd
    exact ⟨hk.symm, b, rfl⟩
  · rw [if_neg hk] at hd
    exact hw k d (Option.filter_eq_some_iff.mp hd).1

namespace Blockchain

variable {c : Blockchain} {n : Node}

theorem written_addBlock {now : Int} {b : Block} {preserve : Bool} (hw : Written n.db.live) :
    Written (c.addBlock now b preserve n).2.db.live := by
  rcases hrun : c.addBlock now b preserve n with ⟨f | b', n'⟩
  · exact hw.congr (addBlock_rejected_blocks hrun)
  · obtain ⟨r⟩ := addBlock_ok hrun
    exact (hw.put b').congr r.blocks

theorem written_importFresh {now : Int} {d : PeerBlock} (hw : Written n.db.live) :
    Written (c.importFresh now d n).2.db.live := by
  rcases hrun : c.importFresh now d n with ⟨f | b', n'⟩
  · exact hw.congr (importFresh_rejected_blocks hrun)
  · have hadd := @written_addBlock c n now (Block.fromDict c.host now d) true hw
    rwa [(importFresh_ok hrun).2] at hadd

theorem written_importBlock {now : Int} {d : PeerBlock} (hclosed : n.db.pending = none) (hw : Written n.db.live) :
    Written (c.importBlock now d n).2.db.live := by
  unfold importBlock
  simp only [bind_run, onDb_run, query_run, liftExcept, require]
  by_cases hfits : fitsInt64 (field (normalizeBlockDict d).height (normalizeBlockDict d).number 0) = true
  · simp only [if_pos hfits]
    cases he : n.db.live.getBlock (field (normalizeBlockDict d).height (normalizeBlockDict d).number 0) with
    | none => exact written_importFresh hw
    | some e =>
      by_cases hg : field (normalizeBlockDict d).height (normalizeBlockDict d).number 0 = 0 ∧
          (normalizeBlockDict d).hash ≠ some e.hash
      · simp only [if_pos hg, bind_run, onDb_run, truncateAllBlocks_run hclosed]
        refine written_importFresh (n := truncated n) fun k d hd => ?_
        cases hd
      · simp only [if_neg hg]
        exact hw
  · simp only [if_neg hfits]
    exact hw

theorem written_reorg {now floor height : Int} (hclosed : n.db.pending = none) (hw : Written n.db.live) :
    Written (onDb (c.reorgToAncestor now floor height) n).2.db.live := by
  have hfile : n.db.file.blocks = n.db.live.blocks := congrArg Tables.blocks (Store.live_closed hclosed).symm
  rcases @reorg_blocks c now floor height n.db hfile with hb | hb
  · exact hw.congr hb
  · refine Written.congr (t := n.db.live.deleteAbove height) (fun k d hd => ?_) hb
    rw [getBlock_deleteAbove] at hd
    by_cases hk : k ≤ height
    · rw [if_pos hk] at hd
      exact hw k d hd
    · rw [if_neg hk] at hd
      cases hd

theorem written_calls {calls : List Call} (hclosed : n.db.pending = none) (hw : Written n.db.live) :
    Written (runCalls c calls n).db.live := by
  induction calls generalizing n with
  | nil => exact hw
  | cons call rest ih =>
    refine ih (idle_call call hclosed) ?_
    cases call with
    | addBlock now b preserve => exact written_addBlock hw
    | importBlock now d => exact written_importBlock hclosed hw
    | reorgToAncestor now floor height => exact written_reorg hclosed hw

end Blockchain

/-! ## Leaves -/

def TxDict.json (d : TxDict) : JsonDict := .ofList
  [("hash", .str d.hash), ("from_addr", .str d.fromAddr), ("to_addr", .str d.toAddr), ("value", jsonNum d.value),
    ("nonce", .int d.nonce), ("gas", .int d.gas), ("gas_used", .int d.gasUsed), ("fee", .float d.fee),
    ("burned", .float d.burned), ("data", .str d.data), ("signature", .str d.signature), ("public_key", .str d.publicKey),
    ("timestamp", .int d.timestamp), ("block_height", .int d.blockHeight)]

namespace LightClient

variable (host : Host)

def ownList (d : BlockDict) : List JsonDict := d.transactions.map TxDict.json

def texts (l : List JsonDict) : List String := l.map (leafText host)

def Distinct (l : List JsonDict) (d : BlockDict) : Prop :=
  HashTree.Apart sha ((merkleTree (texts host l)).texts sha ++ (merkleTree d.rootItems).texts sha)

def Complete (lc : LightClient) (n : Int) (d : BlockDict) : Prop :=
  ∀ tx ∈ ownList d, (lc.verifyTransactionInBlock host n tx (ownList d)).valid = true

def OnlyOwn (lc : LightClient) (n : Int) (d : BlockDict) : Prop :=
  ∀ l tx, Distinct host l d → texts host l ≠ texts host (ownList d) → (lc.verifyTransactionInBlock host n tx l).valid = false

def DigestLike (hash : String) : Prop := hash.toList.length = 64 ∧ hash.toList.head? ≠ some '{'

variable {host}

theorem leafText_cons (tx : JsonDict) : ∃ t, (leafText host tx).toList = '{' :: t := by
  unfold leafText dumps
  rw [String.toList_ofList]
  cases tx with
  | nil => exact ⟨_, rfl⟩
  | cons k v t =>
    show ∃ u, render _ (.obj (Fields.insert k v.sortKeys t.sortKeys)) = _
    cases Fields.insert k v.sortKeys t.sortKeys with
    | nil => exact ⟨_, rfl⟩
    | cons k' v' t' => exact ⟨_, rfl⟩

theorem leafText_ne_str {f : JsonDict} {s : String} (h : f.HasStr s) : leafText host f ≠ s := by
  intro he
  have hlt := @length_render_obj _ (spaced escapeAscii host.floatRepr) one_le_escapeAscii _ _ (hasStr_sortKeys h)
  have hlen := congrArg String.length he
  unfold leafText dumps at hlen
  rw [String.length_ofList, Json.sortKeys] at hlen
  omega

theorem hasStr_json (tx : TxDict) : tx.json.HasStr tx.hash := .inl rfl

/-! ## Verification -/

theorem valid_iff {lc : LightClient} {n : Int} {h : BlockHeader} (hh : lc.getHeader n = some h) (tx : JsonDict)
    (l : List JsonDict) : (lc.verifyTransactionInBlock host n tx l).valid = true ↔
      leafText host tx ∈ texts host l ∧ merkleRoot (texts host l) = h.txRoot := by
  unfold verifyTransactionInBlock
  rw [hh]
  show SpvResult.valid (if leafText host tx ∈ texts host l then _ else _) = true ↔ _
  by_cases hmem : leafText host tx ∈ texts host l
  · rw [if_pos hmem]
    have hlt : (texts host l).idxOf (leafText host tx) < (texts host l).length := List.idxOf_lt_length_iff.mpr hmem
    have hget : (texts host l)[(texts host l).idxOf (leafText host tx)]? = some (leafText host tx) :=
      (List.getElem?_eq_getElem hlt).trans (congrArg some (List.getElem_idxOf hlt))
    have hproof := merkleRootFromProof_generateProof hget
    show verifyProof (leafText host tx) (generateProof (texts host l) ((texts host l).idxOf (leafText host tx) : ℤ)) h.txRoot
      ((texts host l).idxOf (leafText host tx)) = true ↔ _
    unfold verifyProof
    rw [if_neg (by omega), decide_eq_true_iff, hproof]
    exact (and_iff_right hmem).symm
  · rw [if_neg hmem]
    exact iff_of_false Bool.false_ne_true fun hv => hmem hv.1

/-! ## Leaves and inner nodes -/

theorem hexDigit_ne_brace (k : Nat) : hexDigit (k % 16) ≠ '{' := by
  have hk : k % 16 < 16 := Nat.mod_lt _ (by decide)
  interval_cases k % 16 <;> decide

theorem head_hashData (s t : String) : (hashData s ++ t).toList.head? ≠ some '{' := by
  intro hhead
  have hlen : (hashData s).toList.length = 64 := hashData_length s
  have hmem : '{' ∈ (hashData s).toList := by
    cases hl : (hashData s).toList with
    | nil => rw [hl] at hlen; cases hlen
    | cons ch rest =>
      rw [String.toList_append, hl, List.cons_append, List.head?_cons] at hhead
      obtain rfl := Option.some.inj hhead
      exact List.mem_cons_self
  unfold hashData sha256Hex Digest.sha256Hex at hmem
  rw [String.toList_ofList] at hmem
  obtain ⟨w, -, hw⟩ := List.mem_flatMap.mp hmem
  obtain ⟨i, -, hi⟩ := List.mem_map.mp hw
  exact hexDigit_ne_brace _ hi

/-- Neither the text of a dictionary nor that of an inner node. -/
def Plain (s : String) : Prop := s.toList.head? ≠ some '{' ∧ s.length ≠ 128

theorem DigestLike.plain {s : String} (h : DigestLike s) : Plain s := by
  refine ⟨h.2, fun hlen => ?_⟩
  have h64 : s.length = 64 := h.1
  omega

theorem not_twin {t u : TextTree String} (ht : ∀ s ∈ t.leaves, s.toList.head? = some '{') (hu : ∀ s ∈ u.leaves, Plain s) :
    ¬ t.Twin sha u := by
  induction t generalizing u with
  | leaf s =>
    intro hw
    have hs := ht s (List.mem_singleton_self s)
    obtain rfl : s = u.text sha := hw
    cases u with
    | leaf s' => exact (hu s' (List.mem_singleton_self s')).1 hs
    | node l r => exact head_hashData _ _ hs
  | node l r ihl ihr =>
    intro hw
    cases u with
    | leaf s =>
      obtain rfl : (TextTree.node l r).text sha = s := hw
      refine (hu _ (List.mem_singleton_self _)).2 ?_
      show (hashData (l.text sha) ++ hashData (r.text sha)).length = 128
      rw [String.length_append, hashData_length, hashData_length]
    | node l' r' =>
      exact ihl (fun s hs => ht s (List.mem_append_left _ hs)) (fun s hs => hu s (List.mem_append_left _ hs)) hw.1

theorem mem_merkleTree {items : List String} (hne : items ≠ []) {s : String} (hs : s ∈ (merkleTree items).leaves) :
    s ∈ items := by
  have hleaves := mem_leaves_pairAll (.leaf "empty") _ (by simpa using hne) hs
  obtain ⟨t, ht, hs⟩ := List.mem_flatMap.mp hleaves
  obtain ⟨item, hitem, rfl⟩ := List.mem_map.mp ht
  rwa [List.mem_singleton.mp hs]

theorem head_texts {l : List JsonDict} (hne : texts host l ≠ []) {s : String}
    (hs : s ∈ (merkleTree (texts host l)).leaves) : s.toList.head? = some '{' := by
  obtain ⟨tx, -, rfl⟩ := List.mem_map.mp (mem_merkleTree hne hs)
  obtain ⟨t, ht⟩ := @leafText_cons host tx
  rw [ht]
  rfl

/-! ## The header of a stored block -/

variable {lc : LightClient} {t : Tables} {k now : Int} {d : BlockDict}

theorem rootItems_ne_nil (d : BlockDict) : d.rootItems ≠ [] := by
  unfold BlockDict.rootItems
  by_cases h : d.transactions = []
  · rw [if_pos h]
    exact List.cons_ne_nil _ _
  · rw [if_neg h]
    simpa using h

theorem txRoot_written (b : Block) : b.toDict.txRoot = merkleRoot b.toDict.rootItems := by
  have hlist : b.toDict.transactions.map TxDict.hash = b.transactions.map Transaction.hash := by
    unfold Block.toDict
    rw [List.map_map]
    rfl
  show computeTxRoot b.transactions = _
  unfold BlockDict.rootItems
  rw [hlist]
  unfold Block.toDict
  cases b.transactions with
  | nil => rfl
  | cons tx rest => rfl

theorem txRoot_header (d : BlockDict) (h : d.txRoot = merkleRoot d.rootItems) :
    (BlockHeader.fromBlockDict now d).txRoot = merkleRoot d.rootItems := by
  show orElse d.txRoot (merkleRoot d.rootItems) = _
  rw [h]
  unfold orElse
  split <;> rfl

def HeaderOf (lc : LightClient) (k : Int) (d : BlockDict) : Prop := ∀ h, lc.getHeader k = some h → h.txRoot = merkleRoot d.rootItems

theorem headerOf_sync (hw : Written t) (hd : t.getBlock k = some d) (hcur : HeaderOf lc k d) :
    HeaderOf (lc.syncFromBlockchain now t).2 k d := by
  intro h hh
  rw [getHeader_sync fun k d hd => (hw k d hd).1] at hh
  cases hold : lc.getHeader k with
  | some old =>
    rw [hold] at hh
    obtain rfl := Option.some.inj hh
    exact hcur old hold
  | none =>
    rw [hold, Option.none_or] at hh
    by_cases hin : 0 ≤ k ∧ k ≤ t.getChainTip
    · rw [if_pos hin, hd] at hh
      obtain rfl := Option.some.inj hh
      obtain ⟨b, rfl⟩ := (hw k d hd).2
      exact txRoot_header _ (txRoot_written b)
    · rw [if_neg hin] at hh
      cases hh

/-! ## Which proofs are accepted -/

theorem valid_twin (hcur : HeaderOf lc k d) {l : List JsonDict} (hs : Distinct host l d) {tx : JsonDict}
    (hv : (lc.verifyTransactionInBlock host k tx l).valid = true) :
    leafText host tx ∈ texts host l ∧ (merkleTree (texts host l)).Twin sha (merkleTree d.rootItems) := by
  cases hh : lc.getHeader k with
  | none =>
    unfold verifyTransactionInBlock at hv
    rw [hh] at hv
    cases hv
  | some h =>
    obtain ⟨hmem, hroot⟩ := (valid_iff hh tx l).mp hv
    rw [hcur h hh, merkleRoot_tree, merkleRoot_tree, twin_iff hs] at hroot
    exact ⟨hmem, hroot⟩

theorem plain_empty : Plain "empty" := by
  constructor <;> decide

theorem rejected (hcur : HeaderOf lc k d) (hplain : ∀ tx ∈ d.transactions, DigestLike tx.hash) {l : List JsonDict}
    (hs : Distinct host l d) (tx : JsonDict) : (lc.verifyTransactionInBlock host k tx l).valid = false := by
  refine Bool.eq_false_iff.mpr fun hv => ?_
  obtain ⟨hmem, htwin⟩ := valid_twin hcur hs hv
  refine not_twin (fun s hs => head_texts (List.ne_nil_of_mem hmem) hs) (fun s hs => ?_) htwin
  have hitem := mem_merkleTree (rootItems_ne_nil d) hs
  unfold BlockDict.rootItems at hitem
  by_cases h : d.transactions = []
  · rw [if_pos h] at hitem
    rw [List.mem_singleton.mp hitem]
    exact plain_empty
  · rw [if_neg h] at hitem
    obtain ⟨tx', htx, rfl⟩ := List.mem_map.mp hitem
    exact (hplain tx' htx).plain

theorem own_rejected (hcur : HeaderOf lc k d) (hs : Distinct host (ownList d) d) (hne : d.transactions ≠ []) (tx : JsonDict) :
    (lc.verifyTransactionInBlock host k tx (ownList d)).valid = false := by
  refine Bool.eq_false_iff.mpr fun hv => ?_
  obtain ⟨-, htwin⟩ := valid_twin hcur hs hv
  have hitems : d.rootItems = d.transactions.map TxDict.hash := if_neg hne
  have hroots : merkleRoot (texts host (ownList d)) = merkleRoot d.rootItems := by
    rw [merkleRoot_tree, merkleRoot_tree]
    exact (twin_iff hs).mpr htwin
  have hsame : texts host (ownList d) = d.transactions.map TxDict.hash := by
    rw [← hitems]
    exact merkleRoot_inj hs (by rw [hitems]; simp [texts, ownList]) hroots
  unfold texts ownList at hsame
  rw [List.map_map] at hsame
  obtain ⟨tx', rest, hcons⟩ := List.exists_cons_of_ne_nil hne
  rw [hcons] at hsame
  exact leafText_ne_str (hasStr_json tx') (List.cons.inj hsame).1

end LightClient

namespace Blockchain

open LightClient

/-- The proofs of a stored block are complete exactly when the block has no transactions. Of another list
nothing is ever accepted, when the hashes in the block look like digests. -/
theorem spv_complete {c : Blockchain} {calls : List Call} {n : Node} (hclosed : n.db.pending = none)
    (hw : Written n.db.live) {k now : Int} {d : BlockDict} (hd : (runCalls c calls n).db.live.getBlock k = some d)
    {lc : LightClient} (hcur : HeaderOf lc k d) (hs : Distinct c.host (ownList d) d) :
    ((Complete c.host (lc.syncFromBlockchain now (runCalls c calls n).db.live).2 k d ∧
        OnlyOwn c.host (lc.syncFromBlockchain now (runCalls c calls n).db.live).2 k d) ↔ d.transactions = []) ∧
    ((∀ tx ∈ d.transactions, DigestLike tx.hash) →
      OnlyOwn c.host (lc.syncFromBlockchain now (runCalls c calls n).db.live).2 k d) := by
  have hsync := @headerOf_sync lc (runCalls c calls n).db.live k now d (written_calls hclosed hw) hd hcur
  have hother : (∀ tx ∈ d.transactions, DigestLike tx.hash) →
      OnlyOwn c.host (lc.syncFromBlockchain now (runCalls c calls n).db.live).2 k d := by
    intro hplain l tx hl _
    exact rejected hsync hplain hl tx
  refine ⟨⟨fun h => ?_, fun hnil => ⟨?_, hother ?_⟩⟩, hother⟩
  · by_contra hne
    obtain ⟨tx, rest, hcons⟩ := List.exists_cons_of_ne_nil hne
    have hmem : tx.json ∈ ownList d := by
      unfold ownList
      rw [hcons]
      exact List.mem_cons_self
    have hvalid := h.1 _ hmem
    rw [own_rejected hsync hs hne] at hvalid
    cases hvalid
  · intro tx htx
    unfold ownList at htx
    rw [hnil] at htx
    cases htx
  · intro tx htx
    rw [hnil] at htx
    cases htx

theorem written_fresh (engine : Bool) : Written (freshNode engine).db.live := by
  intro k d hd
  have hd' : (if k = 0 then some (plain.genesisBlock 1 engine).toDict else none) = some d := by
    rw [← hd]
    unfold Tables.getBlock
    rw [(freshNode_blocks engine).1]
    exact (Table.get_put Table.empty k 0 _).symm
  by_cases hk : k = 0
  · rw [if_pos hk] at hd'
    obtain rfl := Option.some.inj hd'
    exact ⟨hk.symm, _, rfl⟩
  · rw [if_neg hk] at hd'
    cases hd'

theorem spv_complete_genesis :
    ∃ d, (freshNode true).db.live.getBlock 0 = some d ∧
      Complete Host.plain (LightClient.empty.syncFromBlockchain 2 (freshNode true).db.live).2 0 d ∧
      OnlyOwn Host.plain (LightClient.empty.syncFromBlockchain 2 (freshNode true).db.live).2 0 d := by
  have hrow : (freshNode true).db.live.getBlock 0 = some (plain.genesisBlock 1 true).toDict := by
    unfold Tables.getBlock
    rw [(freshNode_blocks true).1]
    rfl
  have hone : Distinct Host.plain (ownList (plain.genesisBlock 1 true).toDict) (plain.genesisBlock 1 true).toDict := by
    refine (apart_singleton "empty").mono fun s hs => ?_
    have hs' : s ∈ ["empty", "empty"] := hs
    simpa using hs'
  have hcur : HeaderOf LightClient.empty 0 (plain.genesisBlock 1 true).toDict := by
    intro h hh
    cases hh
  exact ⟨_, hrow, (@spv_complete plain [] (freshNode true) (freshNode_blocks true).2.1 (written_fresh true) 0 2 _ hrow _ hcur hone).1.mpr rfl⟩

def paidTables : Tables := (runCalls plain [.addBlock 2 (firstBlock [transferOf (.int 5)]) true] fundedNode).db.live

/-- The transfer is not found in its own block. -/
theorem spv_misses_transfer :
    (paidTables.getBlock 1).map (fun d => d.transactions.length) = some 1 ∧
    (paidTables.getBlock 1).map (fun d => (ownList d).map fun tx =>
      ((LightClient.empty.syncFromBlockchain 2 paidTables).2.verifyTransactionInBlock Host.plain 1 tx (ownList d)).valid) =
        some [false] := by
  have hlength : (paidTables.getBlock 1).map (fun d => d.transactions.length) = some 1 := by
    decide +kernel
  have hvalid : (paidTables.getBlock 1).map (fun d => (ownList d).map fun tx =>
      ((LightClient.empty.syncFromBlockchain 2 paidTables).2.verifyTransactionInBlock Host.plain 1 tx (ownList d)).valid) =
        some [false] := by
    decide +kernel
  exact ⟨hlength, hvalid⟩

end Blockchain

end AbsoluteChain
