import AbsoluteChain.OffBlock
import AbsoluteChain.Supply

/-!
# The token marketplace

`features/nft.py`. A token changes hands by a transfer, by a purchase, by an accepted offer or by
the end of an auction; the last three settle a price between accounts. Listings, offers and
auctions stay where they are when a token changes hands.
-/

namespace AbsoluteChain

open Python KeyedTable Runs

structure NFTToken where
  name : String
  description : String
  imageUrl : String
  owner : String
  creator : String
  price : ℚ
  forSale : Bool
  createdAt : ℚ

inductive OfferStatus where
  | pending | accepted
  deriving DecidableEq

structure NFTOffer where
  tokenId : String
  bidder : String
  price : ℚ
  expiresAt : Int
  status : OfferStatus
  createdAt : Int

inductive AuctionStatus where
  | active | ended | finalized | settlementFailed
  deriving DecidableEq

structure AuctionBid where
  bidder : String
  amount : ℚ
  ts : Int

structure NFTAuction where
  tokenId : String
  seller : String
  startPrice : ℚ
  reservePrice : ℚ
  currentBid : ℚ
  currentBidder : Option String
  auctionType : String
  endsAt : Int
  status : AuctionStatus
  bids : List AuctionBid
  createdAt : Int

inductive SaleKind where
  | buy | offer | auction

structure NFTSale where
  tokenId : String
  seller : String
  buyer : String
  price : ℚ
  kind : SaleKind
  timestamp : Int

inductive AuctionAnswer where
  | sold (auctionId winner : String) (price : ℚ)
  | unsold (auctionId message : String)

/-- The accounts with the books of the marketplace. -/
structure NFTMarketplace where
  tables : Tables
  tokens : Table String NFTToken
  offers : Table String NFTOffer
  auctions : Table String NFTAuction
  salesHistory : List NFTSale

namespace NFTMarketplace

def mintFee : ℚ := 1

/-- The double that `0.05` stands for. -/
def royaltyRate : ℚ := Binary64.round (5 / 100)

def royaltyOf (price : ℚ) : ℚ := Binary64.round (price * royaltyRate)

def sellerAmount (price : ℚ) : ℚ := Binary64.round (price - royaltyOf price)

def saveToken (id : String) (t : NFTToken) (s : NFTMarketplace) : NFTMarketplace := { s with tokens := s.tokens.put id t }

def saveOffer (id : String) (o : NFTOffer) (s : NFTMarketplace) : NFTMarketplace := { s with offers := s.offers.put id o }

def saveAuction (id : String) (a : NFTAuction) (s : NFTMarketplace) : NFTMarketplace :=
  { s with auctions := s.auctions.put id a }

theorem tokens_saveAuction (id : String) (a : NFTAuction) (s : NFTMarketplace) : (s.saveAuction id a).tokens = s.tokens := rfl

def recordSale (sale : NFTSale) (s : NFTMarketplace) : NFTMarketplace :=
  { s with salesHistory := s.salesHistory ++ [sale] }

def debit (address : String) (amount : ℚ) (s : NFTMarketplace) : Option NFTMarketplace :=
  if amount ≤ 0 ∨ s.tables.getBalance address < amount then none
  else some { s with tables := s.tables.applyRealDelta Binary64.round address (-amount) }

def payBuyer (buyer : String) (price : ℚ) (t : Tables) : Tables := t.applyRealDelta Binary64.round buyer (-price)

def paySeller (buyer seller : String) (price : ℚ) (t : Tables) : Tables :=
  (payBuyer buyer price t).applyRealDelta Binary64.round seller (sellerAmount price)

def settleSale (buyer seller creator : String) (price : ℚ) (t : Tables) : Option Tables :=
  if price ≤ 0 then none
  else if t.getBalance buyer < price then none
  else
    let t := paySeller buyer seller price t
    some (if creator ≠ seller ∧ 0 < royaltyOf price then t.applyRealDelta Binary64.round creator (royaltyOf price) else t)

def handOver (id : String) (t : NFTToken) (buyer : String) (price : ℚ) (kind : SaleKind) (now : Int) (s : NFTMarketplace) :
    Option NFTMarketplace :=
  (settleSale buyer t.owner t.creator price s.tables).map fun tables =>
    (({ s with tables := tables }.saveToken id { t with owner := buyer, forSale := false }).recordSale
      { tokenId := id, seller := t.owner, buyer := buyer, price := price, kind := kind, timestamp := now })

/-! ## The calls -/

def mintInternal (id name description imageUrl creator : String) (price clock : ℚ) (tokens : Table String NFTToken) :
    Table String NFTToken :=
  match tokens.get? id with
  | some _ => tokens
  | none => tokens.put id
      { name := name, description := description, imageUrl := imageUrl, owner := creator, creator := creator, price := price
        forSale := decide (0 < price), createdAt := clock }

def genesisCollection (clock : ℚ) : Table String NFTToken :=
  [("abs_genesis_crown", "Absolute Crown", "The ultimate crown of the Absolute Kingdom", "crown", (100 : ℚ)),
    ("abs_quantum_guardian", "Quantum Guardian", "Guardian of the quantum realm", "guardian", 200),
    ("abs_genesis_block", "Genesis Block", "The very first block of Absolute chain", "block", 500),
    ("abs_elemental_master", "Elemental Master", "Master of all four elements", "master", 300),
    ("abs_wisdom_relic", "Wisdom Relic", "Ancient artifact of wisdom", "relic", 150)].foldl
    (fun tokens g => mintInternal g.1 g.2.1 g.2.2.1 g.2.2.2.1 "0xgenesis" g.2.2.2.2 clock tokens) .empty

def mint (id name description imageUrl creator : String) (price clock : ℚ) (s : NFTMarketplace) :
    Except String String × NFTMarketplace :=
  match s.tokens.get? id with
  | some _ => (.error "token_id already exists", s)
  | none =>
    match s.debit creator mintFee with
    | none => (.error "Need 1.0 ABS to mint", s)
    | some s =>
      (.ok id, s.saveToken id
        { name := name, description := description, imageUrl := imageUrl, owner := creator, creator := creator, price := price
          forSale := decide (0 < price), createdAt := clock })

def listForSale (id owner : String) (price : ℚ) (s : NFTMarketplace) : Except String (String × ℚ) × NFTMarketplace :=
  if price ≤ 0 then (.error "price must be > 0", s)
  else
    match s.tokens.get? id with
    | none => (.error "not found", s)
    | some t =>
      if t.owner ≠ owner then (.error "not owner", s)
      else (.ok (id, price), s.saveToken id { t with price := price, forSale := true })

def buy (id buyer : String) (now : Int) (s : NFTMarketplace) : Except String (String × String × ℚ) × NFTMarketplace :=
  match s.tokens.get? id with
  | none => (.error "not found", s)
  | some t =>
    if ¬ t.forSale then (.error "not for sale", s)
    else if buyer = t.owner then (.error "already owner", s)
    else
      match s.handOver id t buyer t.price .buy now with
      | none => (.error "insufficient balance or balance backend unavailable", s)
      | some s => (.ok (id, buyer, t.price), s)

def transfer (id fromAddr toAddr : String) (s : NFTMarketplace) : Except String Unit × NFTMarketplace :=
  if toAddr = "" then (.error "recipient required", s)
  else
    match s.tokens.get? id with
    | none => (.error "not found", s)
    | some t =>
      if t.owner ≠ fromAddr then (.error "not owner", s)
      else (.ok (), s.saveToken id { t with owner := toAddr, forSale := false })

def acceptOffer (id seller : String) (now : Int) (s : NFTMarketplace) :
    Except String (String × String × ℚ) × NFTMarketplace :=
  match s.offers.get? id with
  | none => (.error "Offer not found or expired", s)
  | some o =>
    if o.status ≠ .pending then (.error "Offer not found or expired", s)
    else
      match s.tokens.get? o.tokenId with
      | none => (.error "Not token owner", s)
      | some t =>
        if t.owner ≠ seller then (.error "Not token owner", s)
        else
          match s.handOver o.tokenId t o.bidder o.price .offer now with
          | none => (.error "Bidder has insufficient balance or balance backend unavailable", s)
          | some s => (.ok (id, o.tokenId, o.price), s.saveOffer id { o with status := .accepted })

/-- The auction is marked first; what fails afterwards marks it again. -/
def finalizeAuction (id : String) (now : Int) (s : NFTMarketplace) : Except String AuctionAnswer × NFTMarketplace :=
  match s.auctions.get? id with
  | none => (.error "Auction not found", s)
  | some a =>
    if a.status ≠ .active then (.error "Auction already finalized", s)
    else
      let s := s.saveAuction id { a with status := .finalized }
      match a.currentBidder with
      | none => (.ok (.unsold id "Reserve price not met — no sale"), s)
      | some winner =>
        if winner ≠ "" ∧ a.reservePrice ≤ a.currentBid then
          match s.tokens.get? a.tokenId with
          | none => (.error "Auction token not found", s.saveAuction id { a with status := .settlementFailed })
          | some t =>
            match s.handOver a.tokenId t winner a.currentBid .auction now with
            | none =>
              (.error "insufficient balance or balance backend unavailable",
                s.saveAuction id { a with status := .settlementFailed })
            | some s => (.ok (.sold id winner a.currentBid), s)
        else (.ok (.unsold id "Reserve price not met — no sale"), s)

variable (f : Features)

def makeOffer (tokenId bidder : String) (price : ℚ) (hours : Int) (clock : ℚ) (now : Int) (s : NFTMarketplace) :
    Option String × NFTMarketplace :=
  if price ≤ 0 then (none, s)
  else
    match s.tokens.get? tokenId with
    | none => (none, s)
    | some _ =>
      if s.tables.getBalance bidder < price then (none, s)
      else
        let id := f.shortId [tokenId, bidder, f.host.strNum (.float price)] clock
        (some id, s.saveOffer id
          { tokenId := tokenId, bidder := bidder, price := price, expiresAt := now + hours * 3600, status := .pending
            createdAt := now })

def createAuction (tokenId seller : String) (startPrice reservePrice : ℚ) (hours : Int) (auctionType : String) (clock : ℚ)
    (now : Int) (s : NFTMarketplace) : Option String × NFTMarketplace :=
  if startPrice ≤ 0 ∨ reservePrice < 0 ∨ hours ≤ 0 then (none, s)
  else
    match s.tokens.get? tokenId with
    | none => (none, s)
    | some t =>
      if t.owner ≠ seller then (none, s)
      else
        let id := f.shortId [tokenId, seller] clock
        (some id, s.saveAuction id
          { tokenId := tokenId, seller := seller, startPrice := startPrice, reservePrice := reservePrice
            currentBid := startPrice, currentBidder := none, auctionType := auctionType, endsAt := now + hours * 3600
            status := .active, bids := [], createdAt := now })

def placeBid (id bidder : String) (amount : ℚ) (now : Int) (s : NFTMarketplace) :
    Except String (String × ℚ × String) × NFTMarketplace :=
  match s.auctions.get? id with
  | none => (.error "Auction not found or ended", s)
  | some a =>
    if a.status ≠ .active then (.error "Auction not found or ended", s)
    else if a.endsAt < now then (.error "Auction has ended", s.saveAuction id { a with status := .ended })
    else if amount ≤ a.currentBid then (.error ("Bid must be > " ++ f.host.strNum (.float a.currentBid)), s)
    else if s.tables.getBalance bidder < amount then
      (.error "insufficient balance or balance backend unavailable", s)
    else
      (.ok (id, amount, bidder), s.saveAuction id
        { a with
          bids := a.bids ++ [{ bidder := bidder, amount := amount, ts := now }]
          currentBid := amount
          currentBidder := some bidder })

end NFTMarketplace

/-! ## Runs -/

inductive NFTOp where
  | mint (id name description imageUrl creator : String) (price clock : ℚ)
  | listForSale (id owner : String) (price : ℚ)
  | buy (id buyer : String) (now : Int)
  | transfer (id fromAddr toAddr : String)
  | makeOffer (tokenId bidder : String) (price : ℚ) (hours : Int) (clock : ℚ) (now : Int)
  | acceptOffer (id seller : String) (now : Int)
  | createAuction (tokenId seller : String) (startPrice reservePrice : ℚ) (hours : Int) (auctionType : String) (clock : ℚ)
      (now : Int)
  | placeBid (id bidder : String) (amount : ℚ) (now : Int)
  | finalizeAuction (id : String) (now : Int)

namespace NFTMarketplace

def apply (f : Features) : NFTOp → NFTMarketplace → NFTMarketplace
  | .mint id name description imageUrl creator price clock, s => (mint id name description imageUrl creator price clock s).2
  | .listForSale id owner price, s => (listForSale id owner price s).2
  | .buy id buyer now, s => (buy id buyer now s).2
  | .transfer id fromAddr toAddr, s => (transfer id fromAddr toAddr s).2
  | .makeOffer tokenId bidder price hours clock now, s => (makeOffer f tokenId bidder price hours clock now s).2
  | .acceptOffer id seller now, s => (acceptOffer id seller now s).2
  | .createAuction tokenId seller startPrice reservePrice hours auctionType clock now, s =>
    (createAuction f tokenId seller startPrice reservePrice hours auctionType clock now s).2
  | .placeBid id bidder amount now, s => (placeBid f id bidder amount now s).2
  | .finalizeAuction id now, s => (finalizeAuction id now s).2

/-- A sale that a call is about to make: its own checks passed, the price is not settled yet. -/
structure Bargain where
  tokenId : String
  token : NFTToken
  buyer : String
  price : ℚ

def deal : NFTOp → NFTMarketplace → Option Bargain
  | .buy id buyer _, s =>
    match s.tokens.get? id with
    | none => none
    | some t => if t.forSale ∧ buyer ≠ t.owner then some ⟨id, t, buyer, t.price⟩ else none
  | .acceptOffer id seller _, s =>
    match s.offers.get? id with
    | none => none
    | some o =>
      match s.tokens.get? o.tokenId with
      | none => none
      | some t => if o.status = .pending ∧ t.owner = seller then some ⟨o.tokenId, t, o.bidder, o.price⟩ else none
  | .finalizeAuction id _, s =>
    match s.auctions.get? id with
    | none => none
    | some a =>
      match a.currentBidder, s.tokens.get? a.tokenId with
      | some winner, some t =>
        if a.status = .active ∧ winner ≠ "" ∧ a.reservePrice ≤ a.currentBid then
          some ⟨a.tokenId, t, winner, a.currentBid⟩
        else none
      | _, _ => none
  | _, _ => none

def listing : NFTOp → NFTMarketplace → Option (String × String)
  | .mint id name description imageUrl creator price clock, s =>
    match (mint id name description imageUrl creator price clock s).1 with
    | .ok _ => if 0 < price then some (id, creator) else none
    | .error _ => none
  | .listForSale id owner price, s =>
    match (listForSale id owner price s).1 with
    | .ok _ => some (id, owner)
    | .error _ => none
  | _, _ => none

/-- The marketplace beside a record of who put each token on sale. -/
structure Listed where
  market : NFTMarketplace
  listers : Table String String

namespace Listed

def step (f : Features) (op : NFTOp) (s : Listed) : Listed :=
  { market := apply f op s.market
    listers := (listing op s.market).elim s.listers fun l => s.listers.put l.1 l.2 }

def start (t : Tables) (clock : ℚ) : Listed :=
  { market := { tables := t, tokens := genesisCollection clock, offers := .empty, auctions := .empty, salesHistory := [] }
    listers := (genesisCollection clock).map NFTToken.creator }

def Authorised (id a : String) : NFTOp → Listed → Prop
  | .transfer id' fromAddr _, _ => id' = id ∧ fromAddr = a
  | .buy id' _ _, s => id' = id ∧ s.listers.get? id = some a
  | .acceptOffer oid seller now, s => ∃ o, s.market.offers.get? oid = some o ∧ o.tokenId = id ∧ seller = a ∧ now < o.expiresAt
  | .finalizeAuction aid now, s => ∃ x, s.market.auctions.get? aid = some x ∧ x.tokenId = id ∧ x.seller = a ∧ x.endsAt < now
  | _, _ => False

/-- The buyer pays the price, seller and creator share it, and nothing else happens. -/
def Paid (buyer seller creator : String) (price : ℚ) (t t' : Tables) : Prop :=
  t'.getTotalSupply = t.getTotalSupply ∧ ∃ royalty, ∀ a, t'.getBalance a =
    t.getBalance a - (if a = buyer then price else 0) + (if a = seller then price - royalty else 0) +
      (if a = creator then royalty else 0)

/-- What a call should respect: who lets a token go, and where the price of a sale goes. -/
def Kept (f : Features) (op : NFTOp) (s : Listed) : Prop :=
  (∀ id t, s.market.tokens.get? id = some t → ∃ t', (apply f op s.market).tokens.get? id = some t' ∧
    (t'.owner ≠ t.owner → Authorised id t.owner op s)) ∧
  ((apply f op s.market).salesHistory = s.market.salesHistory ∨
    ∃ sale t, (apply f op s.market).salesHistory = s.market.salesHistory ++ [sale] ∧
      s.market.tokens.get? sale.tokenId = some t ∧ sale.seller = t.owner ∧
      Paid sale.buyer sale.seller t.creator sale.price s.market.tables (apply f op s.market).tables)

def InTime (a : String) : NFTOp → NFTMarketplace → Prop
  | .acceptOffer id _ now, s => ∀ o, s.offers.get? id = some o → now < o.expiresAt
  | .finalizeAuction id now, s => ∀ x, s.auctions.get? id = some x → x.seller = a ∧ x.endsAt < now
  | _, _ => True

def strayed (buyer seller creator : String) (price : ℚ) (t : Tables) : ℚ :=
  t.gained Binary64.round buyer (-price) + (payBuyer buyer price t).gained Binary64.round seller (sellerAmount price) +
    if creator ≠ seller ∧ 0 < royaltyOf price then
      (paySeller buyer seller price t).gained Binary64.round creator (royaltyOf price)
    else 0

/-- The price leaves its buyer to the last digit, and what is rounded off the shares adds up to nothing. -/
def Covers (buyer seller creator : String) (price : ℚ) (t : Tables) : Prop :=
  strayed buyer seller creator price t = 0 ∧
    (buyer ≠ seller → buyer ≠ creator → t.Takes Binary64.round buyer (-price))

/-- A sale that the buyer can pay is in time, unless the token goes to its owner, and its price finds its way. -/
def Clean (op : NFTOp) (s : Listed) : Prop :=
  ∀ b, deal op s.market = some b → 0 < b.price → b.price ≤ s.market.tables.getBalance b.buyer →
    (b.buyer = b.token.owner ∨ InTime b.token.owner op s.market) ∧
      Covers b.buyer b.token.owner b.token.creator b.price s.market.tables

end Listed

end NFTMarketplace

end AbsoluteChain
