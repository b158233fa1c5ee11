import AbsoluteChain.Marketplace

/-!
# Sales of tokens

What a settled price does to the accounts, what a call of the marketplace sells, and in which runs
every token leaves its owner by consent and every price arrives.
-/

namespace AbsoluteChain

open Python KeyedTable Runs

namespace NFTMarketplace

namespace Listed

/-! ## A settled price -/

section
variable {buyer seller creator : String} {price : ℚ} {t : Tables}

def settled (buyer seller creator : String) (price : ℚ) (t : Tables) : Tables :=
  let t := paySeller buyer seller price t
  if creator ≠ seller ∧ 0 < royaltyOf price then t.applyRealDelta Binary64.round creator (royaltyOf price) else t

theorem settleSale_some (hp : 0 < price) (hb : price ≤ t.getBalance buyer) :
    settleSale buyer seller creator price t = some (settled buyer seller creator price t) := by
  unfold settleSale settled
  rw [if_neg (not_le.mpr hp), if_neg (not_lt.mpr hb)]

theorem settleSale_none (h : ¬ (0 < price ∧ price ≤ t.getBalance buyer)) :
    settleSale buyer seller creator price t = none := by
  unfold settleSale
  by_cases hp : price ≤ 0
  · rw [if_pos hp]
  · rw [if_neg hp, if_pos]
    exact not_le.mp fun hb => h ⟨not_le.mp hp, hb⟩

theorem supply_settled (buyer seller creator : String) (price : ℚ) (t : Tables) :
    (settled buyer seller creator price t).getTotalSupply = t.getTotalSupply + strayed buyer seller creator price t := by
  unfold settled strayed
  dsimp only
  by_cases h : creator ≠ seller ∧ 0 < royaltyOf price
  · rw [if_pos h, if_pos h, Tables.supply_applyRealDelta]
    unfold paySeller payBuyer
    rw [Tables.supply_applyRealDelta, Tables.supply_applyRealDelta]
    ring
  · rw [if_neg h, if_neg h]
    unfold paySeller payBuyer
    rw [Tables.supply_applyRealDelta, Tables.supply_applyRealDelta]
    ring

theorem balance_settled (buyer seller creator : String) (price : ℚ) (t : Tables) :
    ∃ g₁ g₂ g₃, g₁ = t.gained Binary64.round buyer (-price) ∧ g₁ + g₂ + g₃ = strayed buyer seller creator price t ∧
      (creator = seller → g₃ = 0) ∧ ∀ a, (settled buyer seller creator price t).getBalance a =
        t.getBalance a + (if a = buyer then g₁ else 0) + (if a = seller then g₂ else 0) + (if a = creator then g₃ else 0) := by
  have hshares : ∀ a, (paySeller buyer seller price t).getBalance a =
      t.getBalance a + (if a = buyer then t.gained Binary64.round buyer (-price) else 0) +
        if a = seller then (payBuyer buyer price t).gained Binary64.round seller (sellerAmount price) else 0 := by
    intro a
    unfold paySeller
    rw [Tables.balance_applyRealDelta]
    unfold payBuyer
    rw [Tables.balance_applyRealDelta]
  unfold settled strayed
  dsimp only
  by_cases h : creator ≠ seller ∧ 0 < royaltyOf price
  · refine ⟨_, _, _, rfl, by rw [if_pos h], fun hc => absurd hc h.1, ?_⟩
    intro a
    rw [if_pos h, Tables.balance_applyRealDelta, hshares a]
  · refine ⟨_, _, 0, rfl, by rw [if_neg h], fun _ => rfl, ?_⟩
    intro a
    rw [if_neg h, hshares a, ite_self, add_zero]

theorem paid_iff (buyer seller creator : String) (price : ℚ) (t : Tables) :
    Paid buyer seller creator price t (settled buyer seller creator price t) ↔ Covers buyer seller creator price t := by
  obtain ⟨g₁, g₂, g₃, hbuyer, hstrayed, hown, hbalance⟩ := balance_settled buyer seller creator price t
  have hsupply := supply_settled buyer seller creator price t
  unfold Paid Covers Tables.Takes
  rw [hsupply, add_eq_left, ← hstrayed, ← hbuyer]
  constructor
  · rintro ⟨hnone, royalty, hpaid⟩
    refine ⟨hnone, fun hs hc => ?_⟩
    have hat := hpaid buyer
    rw [hbalance, if_pos rfl, if_pos rfl, if_neg hs, if_neg hs, if_neg hc, if_neg hc] at hat
    linarith
  · rintro ⟨hnone, hexact⟩
    refine ⟨hnone, ?_⟩
    by_cases hc : creator = seller
    · -- the price is the seller's alone
      have hnil := hown hc
      refine ⟨0, fun a => ?_⟩
      rw [hbalance, hnil, ite_self, hc.symm]
      -- a buyer who is the seller as well pays itself
      by_cases hb : buyer = creator
      · by_cases ha : a = creator
        · simp only [ha, hb, if_true]
          linarith
        · simp [ha, hb]
      · have hpaid := hexact (hc ▸ hb) hb
        by_cases ha : a = creator
        · simp only [ha, Ne.symm hb, if_true, if_false]
          linarith
        · simp only [ha, if_false, hpaid]
          split
          · ring
          · ring
    -- the creator has a royalty of its own
    · by_cases hb : buyer = creator
      · refine ⟨price - g₂, fun a => ?_⟩
        rw [hbalance, hb]
        by_cases ha : a = creator
        · simp only [ha, hc, if_true, if_false]
          linarith
        · simp [ha]
      · refine ⟨g₃, fun a => ?_⟩
        rw [hbalance]
        by_cases hs : buyer = seller
        · rw [hs]
          by_cases ha : a = seller
          · simp only [ha, Ne.symm hc, if_true, if_false]
            linarith
          · simp [ha]
        · have hpaid := hexact hs hb
          by_cases ha : a = seller
          · simp only [ha, Ne.symm hs, Ne.symm hc, if_true, if_false]
            linarith
          · simp only [ha, if_false, hpaid]
            split
            · ring
            · ring

theorem covers_exact (hc : creator ≠ seller) (hroyalty : 0 < royaltyOf price) (hsplit : sellerAmount price = price - royaltyOf price)
    (hbuyer : t.Takes Binary64.round buyer (-price))
    (hseller : (payBuyer buyer price t).Takes Binary64.round seller (sellerAmount price))
    (hcreator : (paySeller buyer seller price t).Takes Binary64.round creator (royaltyOf price)) :
    Covers buyer seller creator price t := by
  refine ⟨?_, fun _ _ => hbuyer⟩
  unfold Tables.Takes at hbuyer hseller hcreator
  unfold strayed
  rw [if_pos ⟨hc, hroyalty⟩, hbuyer, hseller, hcreator, hsplit]
  ring

end

/-! ## What a call sells -/

structure Sold (b : Bargain) (s s' : NFTMarketplace) : Prop where
  held : s.tokens.get? b.tokenId = some b.token
  positive : 0 < b.price
  payable : b.price ≤ s.tables.getBalance b.buyer
  tokens : s'.tokens = s.tokens.put b.tokenId { b.token with owner := b.buyer, forSale := false }
  tables : s'.tables = settled b.buyer b.token.owner b.token.creator b.price s.tables
  recorded : ∃ sale, s'.salesHistory = s.salesHistory ++ [sale] ∧ sale.tokenId = b.tokenId ∧ sale.seller = b.token.owner ∧
    sale.buyer = b.buyer ∧ sale.price = b.price

/-- No bargain, or one that cannot be paid. -/
structure Unsold (b : Option Bargain) (s s' : NFTMarketplace) : Prop where
  unpayable : ∀ x, b = some x → ¬ (0 < x.price ∧ x.price ≤ s.tables.getBalance x.buyer)
  tokens : s'.tokens = s.tokens
  history : s'.salesHistory = s.salesHistory

def Traded (b : Option Bargain) (s s' : NFTMarketplace) : Prop := (∃ x, b = some x ∧ Sold x s s') ∨ Unsold b s s'

variable {f : Features} {s : NFTMarketplace}

theorem traded_none {s' : NFTMarketplace} (htokens : s'.tokens = s.tokens) (hhistory : s'.salesHistory = s.salesHistory) :
    Traded none s s' := .inr ⟨fun _ h => (nomatch h), htokens, hhistory⟩

theorem handOver_traded (u : NFTMarketplace) {id : String} {t : NFTToken} (buyer : String) (price : ℚ) (kind : SaleKind)
    (now : Int) (hheld : s.tokens.get? id = some t) (htables : u.tables = s.tables) (htokens : u.tokens = s.tokens)
    (hhistory : u.salesHistory = s.salesHistory) :
    (∃ u', u.handOver id t buyer price kind now = some u' ∧ Sold ⟨id, t, buyer, price⟩ s u') ∨
    (u.handOver id t buyer price kind now = none ∧ Unsold (some ⟨id, t, buyer, price⟩) s s) := by
  unfold handOver
  rw [htables]
  by_cases hpay : 0 < price ∧ price ≤ s.tables.getBalance buyer
  · rw [settleSale_some hpay.1 hpay.2]
    refine .inl ⟨_, rfl, hheld, hpay.1, hpay.2, ?_, rfl, ?_⟩
    · change u.tokens.put id _ = _
      rw [htokens]
    · refine ⟨{ tokenId := id, seller := t.owner, buyer := buyer, price := price, kind := kind, timestamp := now }, ?_,
        rfl, rfl, rfl, rfl⟩
      change u.salesHistory ++ _ = _
      rw [hhistory]
  · rw [settleSale_none hpay]
    refine .inr ⟨rfl, ?_, rfl, rfl⟩
    intro x hx
    cases hx
    exact hpay

theorem buy_traded (id buyer : String) (now : Int) : Traded (deal (.buy id buyer now) s) s (buy id buyer now s).2 := by
  simp only [deal, buy]
  cases hid : s.tokens.get? id with
  | none => exact traded_none rfl rfl
  | some t =>
    dsimp only
    by_cases hsale : t.forSale = true
    · rw [if_neg (not_not.mpr hsale)]
      by_cases howner : buyer = t.owner
      · rw [if_pos howner, if_neg fun h => h.2 howner]
        exact traded_none rfl rfl
      · rw [if_neg howner, if_pos ⟨hsale, howner⟩]
        rcases handOver_traded s buyer t.price .buy now hid rfl rfl rfl with
          ⟨u, hu, hsold⟩ | ⟨hu, hunsold⟩
        · rw [hu]
          exact .inl ⟨_, rfl, hsold⟩
        · rw [hu]
          exact .inr hunsold
    · rw [if_pos hsale, if_neg fun h => hsale h.1]
      exact traded_none rfl rfl

theorem acceptOffer_traded (id seller : String) (now : Int) :
    Traded (deal (.acceptOffer id seller now) s) s (acceptOffer id seller now s).2 := by
  simp only [deal, acceptOffer]
  cases s.offers.get? id with
  | none => exact traded_none rfl rfl
  | some o =>
    dsimp only
    by_cases hstatus : o.status = .pending
    · rw [if_neg (not_not.mpr hstatus)]
      cases hid : s.tokens.get? o.tokenId with
      | none => exact traded_none rfl rfl
      | some t =>
        dsimp only
        by_cases howner : t.owner = seller
        · rw [if_neg (not_not.mpr howner), if_pos ⟨hstatus, howner⟩]
          rcases handOver_traded s o.bidder o.price .offer now hid rfl rfl rfl with
            ⟨u, hu, hsold⟩ | ⟨hu, hunsold⟩
          · rw [hu]
            exact .inl ⟨_, rfl, { hsold with }⟩
          · rw [hu]
            exact .inr hunsold
        · rw [if_pos howner, if_neg fun h => howner h.2]
          exact traded_none rfl rfl
    · rw [if_pos hstatus]
      cases s.tokens.get? o.tokenId with
      | none => exact traded_none rfl rfl
      | some t =>
        dsimp only
        rw [if_neg fun h => hstatus h.1]
        exact traded_none rfl rfl

theorem finalizeAuction_traded (id : String) (now : Int) :
    Traded (deal (.finalizeAuction id now) s) s (finalizeAuction id now s).2 := by
  simp only [deal, finalizeAuction]
  cases s.auctions.get? id with
  | none => exact traded_none rfl rfl
  | some a =>
    dsimp only
    by_cases hstatus : a.status = .active
    · rw [if_neg (not_not.mpr hstatus)]
      cases a.currentBidder with
      | none => exact traded_none rfl rfl
      | some winner =>
        dsimp only
        by_cases hwon : winner ≠ "" ∧ a.reservePrice ≤ a.currentBid
        · rw [if_pos hwon]
          rw [tokens_saveAuction]
          cases hid : s.tokens.get? a.tokenId with
          | none => exact traded_none rfl rfl
          | some t =>
            dsimp only
            rw [if_pos ⟨hstatus, hwon⟩]
            rcases handOver_traded (s.saveAuction id _) winner a.currentBid .auction now hid rfl rfl rfl with
              ⟨u, hu, hsold⟩ | ⟨hu, hunsold⟩
            · rw [hu]
              exact .inl ⟨_, rfl, hsold⟩
            · rw [hu]
              exact .inr { hunsold with }
        · rw [if_neg hwon]
          cases s.tokens.get? a.tokenId with
          | none => exact traded_none rfl rfl
          | some t =>
            dsimp only
            rw [if_neg fun h => hwon h.2]
            exact traded_none rfl rfl
    · rw [if_pos hstatus]
      cases a.currentBidder with
      | none => exact traded_none rfl rfl
      | some winner =>
        cases s.tokens.get? a.tokenId with
        | none => exact traded_none rfl rfl
        | some t =>
          dsimp only
          rw [if_neg fun h => hstatus h.1]
          exact traded_none rfl rfl

/-! ## A step -/

def Sound (s : Listed) : Prop :=
  ∀ id t, s.market.tokens.get? id = some t → t.forSale = true → s.listers.get? id = some t.owner

variable {l : Listed} {op : NFTOp}

theorem kept_of_sold {b : Bargain} (hdeal : deal op l.market = some b) (h : Sold b l.market (apply f op l.market))
    (hauth : Authorised b.tokenId b.token.owner op l ↔ InTime b.token.owner op l.market) : Kept f op l ↔ Clean op l := by
  obtain ⟨sale, hhistory, hid, hseller, hbuyer, hprice⟩ := h.recorded
  have hpaid := paid_iff b.buyer b.token.owner b.token.creator b.price l.market.tables
  rw [← h.tables] at hpaid
  unfold Kept Clean
  constructor
  · intro hkept x hx _ _
    rw [hdeal] at hx
    cases hx
    refine ⟨?_, ?_⟩
    · by_cases howner : b.buyer = b.token.owner
      · exact .inl howner
      · obtain ⟨t', ht', hown⟩ := hkept.1 b.tokenId b.token h.held
        rw [h.tokens, Table.get_put_same] at ht'
        cases ht'
        exact .inr (hauth.mp (hown howner))
    · rcases hkept.2 with hsame | ⟨sale', t, hsale, ht, hseller', hshares⟩
      · rw [hhistory] at hsame
        exact absurd hsame (by simp)
      · rw [hhistory] at hsale
        obtain rfl : sale = sale' := by simpa using hsale
        rw [hid, h.held] at ht
        cases ht
        rw [hbuyer, hseller, hprice] at hshares
        exact hpaid.mp hshares
  · intro hclean
    obtain ⟨htime, hcovers⟩ := hclean b hdeal h.positive h.payable
    refine ⟨?_, .inr ⟨sale, b.token, hhistory, hid ▸ h.held, hseller, ?_⟩⟩
    · intro id t ht
      rw [h.tokens, Table.get_put]
      by_cases hsame : id = b.tokenId
      · rw [if_pos hsame]
        rw [hsame, h.held] at ht
        cases ht
        refine ⟨_, rfl, fun hne => ?_⟩
        rw [hsame]
        exact hauth.mpr (htime.resolve_left hne)
      · rw [if_neg hsame]
        exact ⟨t, ht, fun hne => absurd rfl hne⟩
    · rw [hbuyer, hseller, hprice]
      exact hpaid.mpr hcovers

theorem kept_of_traded (h : Traded (deal op l.market) l.market (apply f op l.market))
    (hauth : ∀ b, deal op l.market = some b → (Authorised b.tokenId b.token.owner op l ↔ InTime b.token.owner op l.market)) :
    Kept f op l ↔ Clean op l := by
  rcases h with ⟨b, hdeal, hsold⟩ | hunsold
  · exact kept_of_sold hdeal hsold (hauth b hdeal)
  · refine iff_of_true ⟨fun id t ht => ?_, .inl hunsold.history⟩ fun b hb hp hbalance => ?_
    · rw [hunsold.tokens]
      exact ⟨t, ht, fun hne => absurd rfl hne⟩
    · exact absurd ⟨hp, hbalance⟩ (hunsold.unpayable b hb)

/-- A call that makes no bargain. -/
theorem kept_of_quiet (hdeal : deal op l.market = none)
    (hhistory : (apply f op l.market).salesHistory = l.market.salesHistory)
    (hown : ∀ id t, l.market.tokens.get? id = some t → ∃ t', (apply f op l.market).tokens.get? id = some t' ∧
      (t'.owner ≠ t.owner → Authorised id t.owner op l)) : Kept f op l ↔ Clean op l := by
  refine iff_of_true ⟨hown, .inl hhistory⟩ fun b hb => ?_
  rw [hdeal] at hb
  cases hb

theorem kept_of_tokens (hdeal : deal op l.market = none)
    (hhistory : (apply f op l.market).salesHistory = l.market.salesHistory)
    (htokens : (apply f op l.market).tokens = l.market.tokens) : Kept f op l ↔ Clean op l := by
  refine kept_of_quiet hdeal hhistory fun id t ht => ?_
  rw [htokens]
  exact ⟨t, ht, fun hne => absurd rfl hne⟩

theorem kept_of_put {id : String} {t : NFTToken} (hdeal : deal op l.market = none)
    (hhistory : (apply f op l.market).salesHistory = l.market.salesHistory)
    (htokens : (apply f op l.market).tokens = l.market.tokens.put id t)
    (hown : ∀ t₀, l.market.tokens.get? id = some t₀ → t.owner ≠ t₀.owner → Authorised id t₀.owner op l) :
    Kept f op l ↔ Clean op l := by
  refine kept_of_quiet hdeal hhistory fun id' t₀ ht => ?_
  rw [htokens, Table.get_put]
  by_cases hid : id' = id
  · rw [if_pos hid, hid]
    exact ⟨t, rfl, hown t₀ (hid ▸ ht)⟩
  · rw [if_neg hid]
    exact ⟨t₀, ht, fun hne => absurd rfl hne⟩

theorem Sound.put (h : Sound l) {u : Listed} {id : String} {t : NFTToken} (htokens : u.market.tokens = l.market.tokens.put id t)
    (hlisters : ∀ id', id' ≠ id → u.listers.get? id' = l.listers.get? id')
    (hsale : t.forSale = true → u.listers.get? id = some t.owner) : Sound u := by
  intro id' t' ht'
  rw [htokens, Table.get_put] at ht'
  by_cases hid : id' = id
  · rw [if_pos hid] at ht'
    cases ht'
    rw [hid]
    exact hsale
  · rw [if_neg hid] at ht'
    rw [hlisters id' hid]
    exact h id' t' ht'

theorem Sound.same (h : Sound l) {u : Listed} (htokens : u.market.tokens = l.market.tokens)
    (hlisters : u.listers = l.listers) : Sound u := by
  unfold Sound
  rw [htokens, hlisters]
  exact h

theorem Sound.traded (h : Sound l) {u : Listed} {b : Option Bargain} (ht : Traded b l.market u.market)
    (hlisters : u.listers = l.listers) : Sound u := by
  rcases ht with ⟨x, -, hsold⟩ | hunsold
  · refine h.put hsold.tokens (fun id _ => ?_) fun hsale => ?_
    · rw [hlisters]
    · cases hsale
  · exact h.same hunsold.tokens hlisters

theorem debit_some {a : String} {x : ℚ} {u : NFTMarketplace} (h : s.debit a x = some u) :
    u = { s with tables := s.tables.applyRealDelta Binary64.round a (-x) } := by
  unfold debit at h
  by_cases hno : x ≤ 0 ∨ s.tables.getBalance a < x
  · rw [if_pos hno] at h
    cases h
  · rw [if_neg hno] at h
    exact (Option.some.inj h).symm

theorem step_same (h : Sound l) (hdeal : deal op l.market = none) (hlisting : listing op l.market = none)
    (htokens : (apply f op l.market).tokens = l.market.tokens)
    (hhistory : (apply f op l.market).salesHistory = l.market.salesHistory) :
    Sound (step f op l) ∧ (Kept f op l ↔ Clean op l) := by
  refine ⟨h.same htokens ?_, kept_of_tokens hdeal hhistory htokens⟩
  simp only [step, hlisting, Option.elim_none]

/-- A call that may sell. -/
theorem step_sale (h : Sound l) (hlisting : listing op l.market = none)
    (ht : Traded (deal op l.market) l.market (apply f op l.market))
    (hauth : ∀ b, deal op l.market = some b → (Authorised b.tokenId b.token.owner op l ↔ InTime b.token.owner op l.market)) :
    Sound (step f op l) ∧ (Kept f op l ↔ Clean op l) := by
  refine ⟨h.traded ht ?_, kept_of_traded ht hauth⟩
  simp only [step, hlisting, Option.elim_none]

/-- A call that writes the row of one token. -/
theorem step_put (h : Sound l) (id : String) (t : NFTToken) (hdeal : deal op l.market = none)
    (hlisting : ∀ x, listing op l.market = some x → x.1 = id) (hsale : t.forSale = true → listing op l.market = some (id, t.owner))
    (htokens : (apply f op l.market).tokens = l.market.tokens.put id t)
    (hhistory : (apply f op l.market).salesHistory = l.market.salesHistory)
    (hown : ∀ t₀, l.market.tokens.get? id = some t₀ → t.owner ≠ t₀.owner → Authorised id t₀.owner op l) :
    Sound (step f op l) ∧ (Kept f op l ↔ Clean op l) := by
  refine ⟨h.put htokens (fun id' hne => ?_) fun hs => ?_, kept_of_put hdeal hhistory htokens hown⟩
  · unfold step
    cases hx : listing op l.market with
    | none => rfl
    | some x =>
      dsimp only [Option.elim_some]
      rw [Table.get_put_ne]
      rw [hlisting x hx]
      exact hne
  · unfold step
    rw [hsale hs]
    exact Table.get_put_same _ _ _

theorem step_mint (h : Sound l) (id name description imageUrl creator : String) (price clock : ℚ) :
    Sound (step f (.mint id name description imageUrl creator price clock) l) ∧
      (Kept f (.mint id name description imageUrl creator price clock) l ↔
        Clean (.mint id name description imageUrl creator price clock) l) := by
  -- an id that is taken, or a creator who cannot pay, changes nothing
  cases hid : l.market.tokens.get? id with
  | some t =>
    have hmint : mint id name description imageUrl creator price clock l.market =
        (.error "token_id already exists", l.market) := by
      unfold mint
      rw [hid]
    apply step_same h rfl
    · simp only [listing, hmint]
    · simp only [apply, hmint]
    · simp only [apply, hmint]
  | none =>
    cases hd : l.market.debit creator mintFee with
    | none =>
      have hmint : mint id name description imageUrl creator price clock l.market =
          (.error "Need 1.0 ABS to mint", l.market) := by
        unfold mint
        rw [hid, hd]
      apply step_same h rfl
      · simp only [listing, hmint]
      · simp only [apply, hmint]
      · simp only [apply, hmint]
    | some u =>
      obtain rfl := debit_some hd
      have hmint : mint id name description imageUrl creator price clock l.market =
          (.ok id, { l.market with tables := l.market.tables.applyRealDelta Binary64.round creator (-mintFee) }.saveToken id
            { name := name, description := description, imageUrl := imageUrl, owner := creator, creator := creator
              price := price, forSale := decide (0 < price), createdAt := clock }) := by
        unfold mint
        rw [hid, hd]
      have hlisting : listing (.mint id name description imageUrl creator price clock) l.market =
          if 0 < price then some (id, creator) else none := by
        simp only [listing, hmint]
      -- the token is stored, and listed if it has a price
      apply step_put h id { name := name, description := description, imageUrl := imageUrl, owner := creator
                            creator := creator, price := price, forSale := decide (0 < price), createdAt := clock } rfl
      · intro x hx
        rw [hlisting] at hx
        by_cases hprice : 0 < price
        · rw [if_pos hprice] at hx
          cases hx
          rfl
        · rw [if_neg hprice] at hx
          cases hx
      · intro hsale
        rw [hlisting]
        exact if_pos (of_decide_eq_true hsale)
      · simp only [apply, hmint]
        rfl
      · simp only [apply, hmint]
        rfl
      · intro t₀ ht₀
        rw [hid] at ht₀
        cases ht₀

theorem step_listForSale (h : Sound l) (id owner : String) (price : ℚ) :
    Sound (step f (.listForSale id owner price) l) ∧
      (Kept f (.listForSale id owner price) l ↔ Clean (.listForSale id owner price) l) := by
  have hrefused : ∀ message, listForSale id owner price l.market = (.error message, l.market) →
      Sound (step f (.listForSale id owner price) l) ∧
        (Kept f (.listForSale id owner price) l ↔ Clean (.listForSale id owner price) l) := by
    intro message hlist
    apply step_same h rfl
    · simp only [listing, hlist]
    · simp only [apply, hlist]
    · simp only [apply, hlist]
  by_cases hprice : price ≤ 0
  · apply hrefused "price must be > 0"
    unfold listForSale
    rw [if_pos hprice]
  · cases hid : l.market.tokens.get? id with
    | none =>
      apply hrefused "not found"
      unfold listForSale
      rw [if_neg hprice, hid]
    | some t =>
      by_cases howner : t.owner = owner
      · have hlist : listForSale id owner price l.market =
            (.ok (id, price), l.market.saveToken id { t with price := price, forSale := true }) := by
          unfold listForSale
          rw [if_neg hprice, hid]
          dsimp only
          rw [if_neg (not_not.mpr howner)]
        have hlisting : listing (.listForSale id owner price) l.market = some (id, owner) := by
          simp only [listing, hlist]
        apply step_put h id { t with price := price, forSale := true } rfl
        · intro x hx
          rw [hlisting] at hx
          cases hx
          rfl
        · intro _
          rw [hlisting, howner]
        · simp only [apply, hlist]
          rfl
        · simp only [apply, hlist]
          rfl
        · intro t₀ ht₀ hne
          rw [hid] at ht₀
          cases ht₀
          exact absurd rfl hne
      · apply hrefused "not owner"
        unfold listForSale
        rw [if_neg hprice, hid]
        dsimp only
        rw [if_pos howner]

theorem step_transfer (h : Sound l) (id fromAddr toAddr : String) :
    Sound (step f (.transfer id fromAddr toAddr) l) ∧
      (Kept f (.transfer id fromAddr toAddr) l ↔ Clean (.transfer id fromAddr toAddr) l) := by
  have hrefused : ∀ message, transfer id fromAddr toAddr l.market = (.error message, l.market) →
      Sound (step f (.transfer id fromAddr toAddr) l) ∧
        (Kept f (.transfer id fromAddr toAddr) l ↔ Clean (.transfer id fromAddr toAddr) l) := by
    intro message htransfer
    apply step_same h rfl rfl
    · simp only [apply, htransfer]
    · simp only [apply, htransfer]
  by_cases hto : toAddr = ""
  · apply hrefused "recipient required"
    unfold transfer
    rw [if_pos hto]
  · cases hid : l.market.tokens.get? id with
    | none =>
      apply hrefused "not found"
      unfold transfer
      rw [if_neg hto, hid]
    | some t =>
      by_cases howner : t.owner = fromAddr
      · have htransfer : transfer id fromAddr toAddr l.market =
            (.ok (), l.market.saveToken id { t with owner := toAddr, forSale := false }) := by
          unfold transfer
          rw [if_neg hto, hid]
          dsimp only
          rw [if_neg (not_not.mpr howner)]
        apply step_put h id { t with owner := toAddr, forSale := false } rfl
        · intro x hx
          cases hx
        · intro hsale
          cases hsale
        · simp only [apply, htransfer]
          rfl
        · simp only [apply, htransfer]
          rfl
        · intro t₀ ht₀ _
          rw [hid] at ht₀
          cases ht₀
          exact ⟨rfl, howner.symm⟩
      · apply hrefused "not owner"
        unfold transfer
        rw [if_neg hto, hid]
        dsimp only
        rw [if_pos howner]

theorem makeOffer_books (tokenId bidder : String) (price : ℚ) (hours : Int) (clock : ℚ) (now : Int) :
    (makeOffer f tokenId bidder price hours clock now s).2.tokens = s.tokens ∧
      (makeOffer f tokenId bidder price hours clock now s).2.salesHistory = s.salesHistory := by
  unfold makeOffer
  by_cases hprice : price ≤ 0
  · rw [if_pos hprice]
    exact ⟨rfl, rfl⟩
  · rw [if_neg hprice]
    cases s.tokens.get? tokenId with
    | none => exact ⟨rfl, rfl⟩
    | some t =>
      dsimp only
      by_cases hbalance : s.tables.getBalance bidder < price
      · rw [if_pos hbalance]
        exact ⟨rfl, rfl⟩
      · rw [if_neg hbalance]
        exact ⟨rfl, rfl⟩

theorem createAuction_books (tokenId seller : String) (startPrice reservePrice : ℚ) (hours : Int) (auctionType : String)
    (clock : ℚ) (now : Int) :
    (createAuction f tokenId seller startPrice reservePrice hours auctionType clock now s).2.tokens = s.tokens ∧
      (createAuction f tokenId seller startPrice reservePrice hours auctionType clock now s).2.salesHistory =
        s.salesHistory := by
  unfold createAuction
  by_cases hno : startPrice ≤ 0 ∨ reservePrice < 0 ∨ hours ≤ 0
  · rw [if_pos hno]
    exact ⟨rfl, rfl⟩
  · rw [if_neg hno]
    cases s.tokens.get? tokenId with
    | none => exact ⟨rfl, rfl⟩
    | some t =>
      dsimp only
      by_cases howner : t.owner ≠ seller
      · rw [if_pos howner]
        exact ⟨rfl, rfl⟩
      · rw [if_neg howner]
        exact ⟨rfl, rfl⟩

theorem placeBid_books (id bidder : String) (amount : ℚ) (now : Int) :
    (placeBid f id bidder amount now s).2.tokens = s.tokens ∧
      (placeBid f id bidder amount now s).2.salesHistory = s.salesHistory := by
  unfold placeBid
  cases s.auctions.get? id with
  | none => exact ⟨rfl, rfl⟩
  | some a =>
    dsimp only
    by_cases hstatus : a.status ≠ .active
    · rw [if_pos hstatus]
      exact ⟨rfl, rfl⟩
    · rw [if_neg hstatus]
      by_cases hended : a.endsAt < now
      · rw [if_pos hended]
        exact ⟨rfl, rfl⟩
      · rw [if_neg hended]
        by_cases hlow : amount ≤ a.currentBid
        · rw [if_pos hlow]
          exact ⟨rfl, rfl⟩
        · rw [if_neg hlow]
          by_cases hbalance : s.tables.getBalance bidder < amount
          · rw [if_pos hbalance]
            exact ⟨rfl, rfl⟩
          · rw [if_neg hbalance]
            exact ⟨rfl, rfl⟩

theorem buy_authorised (h : Sound l) {id buyer : String} {now : Int} {b : Bargain}
    (hdeal : deal (.buy id buyer now) l.market = some b) :
    Authorised b.tokenId b.token.owner (.buy id buyer now) l ↔ InTime b.token.owner (.buy id buyer now) l.market := by
  simp only [deal] at hdeal
  cases hid : l.market.tokens.get? id with
  | none =>
    rw [hid] at hdeal
    cases hdeal
  | some t =>
    rw [hid] at hdeal
    dsimp only at hdeal
    by_cases hsale : t.forSale = true ∧ buyer ≠ t.owner
    · rw [if_pos hsale] at hdeal
      cases hdeal
      exact iff_of_true ⟨rfl, h id t hid hsale.1⟩ trivial
    · rw [if_neg hsale] at hdeal
      cases hdeal

theorem acceptOffer_authorised {id seller : String} {now : Int} {b : Bargain}
    (hdeal : deal (.acceptOffer id seller now) l.market = some b) :
    Authorised b.tokenId b.token.owner (.acceptOffer id seller now) l ↔
      InTime b.token.owner (.acceptOffer id seller now) l.market := by
  simp only [deal] at hdeal
  cases ho : l.market.offers.get? id with
  | none =>
    rw [ho] at hdeal
    cases hdeal
  | some o =>
    rw [ho] at hdeal
    dsimp only at hdeal
    cases hid : l.market.tokens.get? o.tokenId with
    | none =>
      rw [hid] at hdeal
      cases hdeal
    | some t =>
      rw [hid] at hdeal
      dsimp only at hdeal
      by_cases howner : o.status = .pending ∧ t.owner = seller
      · rw [if_pos howner] at hdeal
        cases hdeal
        constructor
        · intro hauth o' ho'
          obtain ⟨_, hsame, -, -, htime⟩ := hauth
          rw [ho'] at hsame
          cases hsame
          exact htime
        · intro htime
          exact ⟨o, ho, rfl, howner.2.symm, htime o ho⟩
      · rw [if_neg howner] at hdeal
        cases hdeal

theorem finalizeAuction_authorised {id : String} {now : Int} {b : Bargain}
    (hdeal : deal (.finalizeAuction id now) l.market = some b) :
    Authorised b.tokenId b.token.owner (.finalizeAuction id now) l ↔
      InTime b.token.owner (.finalizeAuction id now) l.market := by
  simp only [deal] at hdeal
  cases ha : l.market.auctions.get? id with
  | none =>
    rw [ha] at hdeal
    cases hdeal
  | some a =>
    rw [ha] at hdeal
    dsimp only at hdeal
    cases hw : a.currentBidder with
    | none =>
      rw [hw] at hdeal
      cases hdeal
    | some winner =>
      cases hid : l.market.tokens.get? a.tokenId with
      | none =>
        rw [hw, hid] at hdeal
        cases hdeal
      | some t =>
        rw [hw, hid] at hdeal
        dsimp only at hdeal
        by_cases hwon : a.status = .active ∧ winner ≠ "" ∧ a.reservePrice ≤ a.currentBid
        · rw [if_pos hwon] at hdeal
          cases hdeal
          constructor
          · intro hauth x hx
            obtain ⟨_, hsame, -, hover⟩ := hauth
            rw [hx] at hsame
            cases hsame
            exact hover
          · intro htime
            exact ⟨a, ha, rfl, htime a ha⟩
        · rw [if_neg hwon] at hdeal
          cases hdeal

theorem step_clean (op : NFTOp) (h : Sound l) : Sound (step f op l) ∧ (Kept f op l ↔ Clean op l) := by
  cases op with
  | mint id name description imageUrl creator price clock => exact step_mint h id name description imageUrl creator price clock
  | listForSale id owner price => exact step_listForSale h id owner price
  | buy id buyer now => exact step_sale h rfl (buy_traded id buyer now) fun b hb => buy_authorised h hb
  | transfer id fromAddr toAddr => exact step_transfer h id fromAddr toAddr
  | makeOffer tokenId bidder price hours clock now =>
    obtain ⟨htokens, hhistory⟩ := makeOffer_books (f := f) (s := l.market) tokenId bidder price hours clock now
    exact step_same h rfl rfl htokens hhistory
  | acceptOffer id seller now =>
    exact step_sale h rfl (acceptOffer_traded id seller now) fun b hb => acceptOffer_authorised hb
  | createAuction tokenId seller startPrice reservePrice hours auctionType clock now =>
    obtain ⟨htokens, hhistory⟩ :=
      createAuction_books (f := f) (s := l.market) tokenId seller startPrice reservePrice hours auctionType clock now
    exact step_same h rfl rfl htokens hhistory
  | placeBid id bidder amount now =>
    obtain ⟨htokens, hhistory⟩ := placeBid_books (f := f) (s := l.market) id bidder amount now
    exact step_same h rfl rfl htokens hhistory
  | finalizeAuction id now =>
    exact step_sale h rfl (finalizeAuction_traded id now) fun b hb => finalizeAuction_authorised hb

def Created (tokens : Table String NFTToken) : Prop := ∀ id t, tokens.get? id = some t → t.owner = t.creator

theorem created_mintInternal {tokens : Table String NFTToken} (h : Created tokens)
    (id name description imageUrl creator : String) (price clock : ℚ) :
    Created (mintInternal id name description imageUrl creator price clock tokens) := by
  unfold mintInternal
  cases tokens.get? id with
  | some t => exact h
  | none =>
    intro id' t' ht'
    dsimp only at ht'
    rw [Table.get_put] at ht'
    by_cases hid : id' = id
    · rw [if_pos hid] at ht'
      cases ht'
      rfl
    · rw [if_neg hid] at ht'
      exact h id' t' ht'

theorem created_genesisCollection (clock : ℚ) : Created (genesisCollection clock) := by
  unfold genesisCollection
  apply List.foldlRecOn (motive := Created)
  · intro id t ht
    cases ht
  · intro tokens h g _
    exact created_mintInternal h g.1 g.2.1 g.2.2.1 g.2.2.2.1 "0xgenesis" g.2.2.2.2 clock

theorem sound_start (t : Tables) (clock : ℚ) : Sound (start t clock) := by
  intro id x hx _
  change (genesisCollection clock).get? id = some x at hx
  change ((genesisCollection clock).map NFTToken.creator).get? id = some x.owner
  rw [Table.get_map, hx, Option.map_some, created_genesisCollection clock id x hx]

end Listed

end NFTMarketplace

end AbsoluteChain
