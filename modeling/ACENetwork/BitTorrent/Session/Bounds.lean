import ACENetwork.BitTorrent.Session.Transitions

/-!
# Bounds of bitfields and pieces

One record after the other: as long as every record keeps to the size of the torrent,
each bitfield has a byte for every eight pieces and no index or advance leaves the
bounds of a bitfield or of the vector of pieces.
-/
namespace ACENetwork.BitTorrent
open Library

namespace Tools

theorem inRange_cropContinuations {overlap : UInt32} {blocks : List (List UInt8)} :
    InRange (cropContinuations overlap blocks) := by
  induction blocks generalizing overlap with
  | nil => simp [cropContinuations]
  | cons last front ih =>
    unfold cropContinuations
    split
    · simp
    · split
      · simp
      · split
        · simp
        · exact ih

theorem inRange_mergeChunks {chunk : PieceChunk} {chunks : List PieceChunk} :
    InRange (mergeChunks chunk chunks) := by
  have hcrop (chunk next : PieceChunk) : InRange (cropOverlap chunk next) := by
    unfold cropOverlap
    split
    · simp
    · refine inRange_bind (inRange_bind inRange_cropContinuations fun blocks _ => ?_) (by simp)
      split <;> simp
  induction chunks generalizing chunk with
  | nil => simp [mergeChunks]
  | cons next rest ih =>
    unfold mergeChunks
    split
    · exact ih
    · exact inRange_bind (hcrop chunk next) fun _ _ => inRange_bind ih (by simp)

theorem inRange_appendChunk {sort : Sorter pieceChunksLess} {chunks : List PieceChunk}
    {block : PieceChunk} : InRange (appendChunk sort chunks block) := by
  unfold appendChunk sanitizeChunks
  split
  · simp
  · exact inRange_mergeChunks

theorem inRange_getMissingChunks {ndebug : Bool} {pieceLength : UInt32}
    {chunks : List PieceChunk} : InRange (getMissingChunks ndebug pieceLength chunks) := by
  have hfrom (offset : UInt32) : InRange (getMissingChunksFrom ndebug pieceLength offset chunks) := by
    induction chunks generalizing offset with
    | nil => simp [getMissingChunksFrom]
    | cons chunk chunks ih =>
      unfold getMissingChunksFrom
      split
      · exact ih _
      · exact inRange_bind inRange_aceAssert fun _ _ => inRange_bind (ih _) (by simp)
  exact hfrom 0

theorem inRange_validatePieceHash {ndebug : Bool} {sha1 : List UInt8 → Vector UInt8 20}
    {piece : Piece} : InRange (validatePieceHash ndebug sha1 piece) := by
  simp only [validatePieceHash]
  split
  · simp
  · refine inRange_bind inRange_aceAssert fun _ _ => ?_
    split <;> simp

theorem inRange_savePiece {file : FileResults} {piece : Piece} :
    InRange (savePiece file piece) := by
  simp only [savePiece]
  split
  · simp
  · split
    · simp
    · split
      · simp
      · split <;> simp

theorem inRange_loadPiece {ndebug : Bool} {file : FileResults} {path : List Char} {index : UInt32}
    {piece : Piece} : InRange (loadPiece ndebug file path index piece) := by
  refine inRange_bind inRange_aceAssert fun _ _ => ?_
  split
  · simp
  · split <;> simp

end Tools

namespace Session
open Tools

variable {cfg : Configuration} {env : Environment}

theorem inRange_chunkData {chunks : List PieceChunk} {begin length : UInt32} :
    InRange (chunkData cfg chunks begin length) := by
  have hseek (previous : Option PieceChunk) : InRange (seekChunk begin previous chunks) := by
    induction chunks generalizing previous with
    | nil => simp [seekChunk]
    | cons chunk chunks ih =>
      unfold seekChunk
      split
      · exact ih _
      · split
        · cases previous <;> simp
        · simp
  have hgather (missing : ℕ) (blocks : List (List UInt8)) :
      InRange (gatherBlocks cfg missing blocks) := by
    induction blocks generalizing missing with
    | nil =>
      simp only [gatherBlocks, inRange_error]
      split <;> simp
    | cons block blocks ih =>
      unfold gatherBlocks
      split
      · simp
      · exact inRange_bind (ih _) (by simp)
  refine inRange_bind (hseek none) fun r _ => ?_
  refine inRange_bind inRange_aceAssert fun _ _ => inRange_bind inRange_aceAssert fun _ _ => ?_
  split
  · simp
  · refine inRange_bind ?_ fun _ _ => inRange_bind inRange_aceAssert fun _ _ => inRange_ok _
    unfold takeBlocks
    split
    · simp
    · exact hgather _ _

theorem inRange_assertFound {α : Type} {o : Option α} : InRange (assertFound cfg o) :=
  fun h => assertFound_error h rfl

theorem inRange_continuePiece {key : UInt32} {sendHave notifyCompletion : Bool}
    {effects : List Effect} {s : SessionState} :
    InRange (continuePiece cfg key sendHave notifyCompletion effects s) :=
  inRange_bind inRange_assertFound (by simp)

theorem inRange_insertConnection {id : ConnectionId} {s : SessionState} :
    InRange (insertConnection cfg id s) := by
  unfold insertConnection
  split
  · exact inRange_bind inRange_aceAssert (by simp)
  · simp

theorem inRange_pieceReceived {key index begin : UInt32} {block : Option MessageBlock}
    {s : SessionState} (hindex : index.toNat < s.pieces.length) :
    InRange (pieceReceived cfg env key index begin block s) := by
  unfold pieceReceived
  rw [List.getElem?_eq_getElem hindex]
  simp only
  split
  · exact inRange_continuePiece
  · split
    · simp
    · split
      · exact inRange_continuePiece
      · refine inRange_bind inRange_appendChunk fun chunks _ => ?_
        split
        · exact inRange_continuePiece
        · refine inRange_bind inRange_validatePieceHash fun valid _ => ?_
          split
          · refine inRange_bind inRange_savePiece fun saved _ => ?_
            simp only
            split
            · exact inRange_bind inRange_aceAssert (by simp)
            · split
              · exact inRange_continuePiece
              · split
                · exact inRange_bind inRange_aceAssert (by simp)
                · exact inRange_continuePiece
          · exact inRange_continuePiece

theorem inRange_attachChunk {index begin length : UInt32} {s : SessionState}
    (hindex : index.toNat < s.pieces.length) :
    InRange (attachChunk cfg env index begin length s) := by
  unfold attachChunk
  rw [List.getElem?_eq_getElem hindex]
  simp only
  split
  · refine inRange_bind inRange_loadPiece fun loaded _ => ?_
    split
    · simp
    · exact inRange_bind inRange_chunkData fun _ _ => inRange_ok _
  · split
    · simp
    · exact inRange_bind inRange_chunkData (by simp)

theorem doesntHave_ok {ndebug : Bool} {bitfield : List UInt8} {indexes result : List ℕ}
    (h : doesntHave ndebug bitfield indexes = .ok result) {i : ℕ} (hi : i ∈ result) :
    hasBit (UInt32.ofNat i) bitfield = false := by
  induction indexes generalizing result with
  | nil =>
    obtain rfl : [] = result := by simpa [doesntHave] using h
    cases hi
  | cons index indexes ih =>
    obtain ⟨has, hhas, h⟩ := fault_bind_ok.mp h
    obtain ⟨rest, hrest, h⟩ := fault_bind_ok.mp h
    have hbit := havePiece_ok hhas
    cases has with
    | true =>
      obtain rfl : rest = result := by simpa using h
      exact ih hrest hi
    | false =>
      obtain rfl : index :: rest = result := by simpa using h
      rcases List.mem_cons.mp hi with rfl | hmem
      · exact hbit.symm
      · exact ih hrest hmem

theorem inRange_doesntHave {ndebug : Bool} {bitfield : List UInt8} {n : ℕ} {indexes : List ℕ}
    (hlength : bitfield.length = bitfieldLength n) (hindexes : ∀ i ∈ indexes, i < n) :
    InRange (doesntHave ndebug bitfield indexes) := by
  induction indexes with
  | nil => simp [doesntHave]
  | cons index indexes ih =>
    have hindex : index < n := hindexes index List.mem_cons_self
    have hbyte : (UInt32.ofNat index).toNat / 8 < bitfield.length := by
      rw [hlength]
      exact word_div_lt_bitfieldLength hindex
    unfold doesntHave
    rw [havePiece_eq hbyte]
    exact inRange_bind (by simp) fun _ _ =>
      inRange_bind (ih fun i hi => hindexes i (List.mem_cons_of_mem _ hi)) (by simp)

/-- Where `hasMissingPiece` has found a piece, `requestNextPiece` has one to choose. -/
theorem inRange_choosePiece {pieces : List Piece} {peer : PeerState}
    (hlength : peer.pieces.length = bitfieldLength pieces.length) :
    InRange (choosePiece cfg env pieces peer) := by
  refine inRange_bind ?_ fun has hhas => ?_
  · exact hasMissingPieceFrom_error (by simpa using hlength)
  cases has with
  | false => simp
  | true =>
    obtain ⟨i, piece, hpiece, hmissing, hbit⟩ := (hasMissingPieceFrom_ok hhas).mp rfl
    rw [Nat.zero_add] at hbit
    simp only [if_true]
    refine inRange_bind ?_ (by simp)
    refine inRange_bind inRange_aceAssert fun _ _ => ?_
    refine inRange_bind (inRange_doesntHave hlength fun i hi => List.mem_range.mp hi)
      fun without hwithout => ?_
    refine inRange_bind inRange_aceAssert fun _ _ => ?_
    have hmem : i ∈ (getPieceIndexes pieces true).filter (· ∉ without) := by
      refine List.mem_filter.mpr ⟨mem_getPieceIndexes.mpr ⟨piece, hpiece, hmissing⟩, ?_⟩
      have hnot : i ∉ without := fun hi => by simp [doesntHave_ok hwithout hi] at hbit
      simpa using hnot
    have hlt := Nat.mod_lt env.randomPiece (List.length_pos_of_mem hmem)
    rw [List.getElem?_eq_getElem hlt]
    simp only
    have hchosen := List.mem_of_mem_filter (List.getElem_mem hlt)
    obtain ⟨chosen, hchosen, -⟩ := mem_getPieceIndexes.mp hchosen
    rw [hchosen]
    refine inRange_bind inRange_getMissingChunks fun chunks _ => ?_
    refine inRange_bind inRange_aceAssert fun _ _ => ?_
    split <;> simp

/-- Every bitfield has a byte for every eight of the torrent's `n` pieces. -/
structure Sized (n : ℕ) (s : SessionState) : Prop where
  pieces : s.pieces.length = n
  bitfields : ∀ key peer, s.peerState key = some peer → peer.pieces.length = bitfieldLength n

/-- A session as `initialize` leaves it: a piece for every hash, and no peers. -/
structure Initialized (cfg : Configuration) (s : SessionState) : Prop where
  pieces : cfg.pieceHashesSize = pieceHashSize * s.pieces.length
  peers : ∀ key, s.peerState key = none

/-- A REQUEST that comes to the scope of `piece`. -/
def Serves (cfg : Configuration) (s : SessionState) (job : Job) (record : PeerRecord) : Prop :=
  (∃ peer, s.peerState (job.key cfg) = some peer ∧ peer.status.peerChoking = false) ∧
    job.env.hasConnection job.id = true ∧ (cfg.ndebug = true ∨ record.payload.length ≠ 0)

/-- The job keeps to the size of the torrent: a BITFIELD has its bytes, and what HAVE,
PIECE and a REQUEST that is served point at lies within it. -/
def KeepsSize (cfg : Configuration) (s : SessionState) (job : Job) : Prop :=
  cfg.pieceHashesSize < 2 ^ 32 ∧
    ∀ record block, job.call = .record record block → record.length ≠ 0 →
      (record.type = some .bitfield →
        record.bitfield.length = bitfieldLength s.pieces.length) ∧
      (record.type = some .have →
        record.payload.index.toNat / 8 < bitfieldLength s.pieces.length) ∧
      (record.type = some .piece → record.payload.index.toNat < s.pieces.length) ∧
      (record.type = some .request → Serves cfg s job record →
        record.payload.index.toNat < s.pieces.length)

section Sized

variable {n : ℕ} {job : Job} {s t : SessionState}

theorem Sized.setPeer (h : Sized n s) {key : UInt32} {peer : PeerState}
    (hpeer : peer.pieces.length = bitfieldLength n) : Sized n (s.setPeer key peer) := by
  refine ⟨h.pieces, fun key' peer' hpeer' => ?_⟩
  rw [setPeer_peerState] at hpeer'
  split at hpeer'
  · obtain rfl := Option.some.inj hpeer'
    exact hpeer
  · exact h.bitfields key' peer' hpeer'

theorem becomeInterested_pieces (hasMissing : Bool) (peer : PeerState) :
    (becomeInterested hasMissing peer).2.pieces = peer.pieces := by
  unfold becomeInterested
  split <;> rfl

theorem inRange_countRequests {change : ℤ} {peer : PeerState} :
    InRange (countRequests change peer) := by
  simp only [countRequests]
  split <;> simp

/-- `update` of a bitfield of the right size stays in range and keeps the size. -/
def SizeKept (n : ℕ) {β : Type} (x : Except Fault (β × PeerState)) : Prop :=
  InRange x ∧ ∀ b peer, x = .ok (b, peer) → peer.pieces.length = bitfieldLength n

theorem sizeKept_ok {β : Type} {b : β} {peer : PeerState}
    (h : peer.pieces.length = bitfieldLength n) : SizeKept n (.ok (b, peer)) := by
  refine ⟨inRange_ok _, fun b' peer' heq => ?_⟩
  obtain ⟨-, rfl⟩ : b = b' ∧ peer = peer' := by simpa using heq
  exact h

theorem sizeKept_bind {α β : Type} {x : Except Fault α} {f : α → Except Fault (β × PeerState)}
    (hx : InRange x) (hf : ∀ a, x = .ok a → SizeKept n (f a)) : SizeKept n (x >>= f) := by
  refine ⟨inRange_bind hx fun a ha => (hf a ha).1, fun b peer h => ?_⟩
  obtain ⟨a, ha, hfa⟩ := fault_bind_ok.mp h
  exact (hf a ha).2 b peer hfa

theorem hasMissingPiece_inRange {ndebug : Bool} {pieces : List Piece} {bitfield : List UInt8}
    (hlength : bitfield.length = bitfieldLength pieces.length) :
    InRange (hasMissingPiece ndebug pieces bitfield) :=
  hasMissingPieceFrom_error (by simpa using hlength)

theorem PeerUpdate.sizeKept {β : Type}
    {update : List Piece → PeerState → Except Fault (β × PeerState)}
    {point : Point} (h : PeerUpdate cfg job point update) (hkeeps : KeepsSize cfg s job)
    (hn : cfg.numberOfPieces = s.pieces.length) {pieces : List Piece}
    (hpieces : pieces.length = s.pieces.length) {peer : PeerState}
    (hpeer : peer.pieces.length = bitfieldLength s.pieces.length) :
    SizeKept s.pieces.length (update pieces peer) := by
  cases h with
  | choke => exact sizeKept_ok hpeer
  | unchoke => exact sizeKept_ok hpeer
  | interested => exact sizeKept_ok hpeer
  | notInterested => exact sizeKept_ok hpeer
  | «have» hcall hlength htype =>
    have hindex := (hkeeps.2 _ _ hcall hlength).2.1 htype
    rw [← hpeer] at hindex
    unfold haveReceived
    rw [List.getElem?_eq_getElem hindex]
    refine sizeKept_bind (hasMissingPiece_inRange ?_) fun has _ => sizeKept_ok ?_
    · rw [List.length_set, hpeer, hpieces]
    · rw [becomeInterested_pieces, List.length_set, hpeer]
  | bitfield hcall hlength htype =>
    have hbitfield := (hkeeps.2 _ _ hcall hlength).1 htype
    simp only [bitfieldReceived]
    split
    · exact sizeKept_ok hbitfield
    · refine sizeKept_bind (hasMissingPiece_inRange ?_) fun has _ => sizeKept_ok ?_
      · rw [hbitfield, hpieces]
      · rw [becomeInterested_pieces, hbitfield]
  | read f => exact sizeKept_ok hpeer
  | choosePiece =>
    refine ⟨inRange_choosePiece (by rw [hpeer, hpieces]), fun b peer' hchoose => ?_⟩
    obtain ⟨has, -, hchoose⟩ := fault_bind_ok.mp hchoose
    cases has with
    | true =>
      obtain ⟨chosen, -, hchosen⟩ := fault_bind_ok.mp hchoose
      obtain ⟨-, rfl⟩ : _ ∧ peer = peer' := by simpa using hchosen
      exact hpeer
    | false =>
      obtain ⟨-, rfl⟩ : _ ∧ _ = peer' := by simpa using hchoose
      exact hpeer
  | requested requestingPiece =>
    cases requestingPiece with
    | false => exact sizeKept_ok hpeer
    | true =>
      refine sizeKept_bind inRange_countRequests fun peer' hcount => sizeKept_ok ?_
      rw [countRequests_ok hcount, hpeer]
  | answered =>
    refine sizeKept_bind inRange_countRequests fun peer' hcount => sizeKept_ok ?_
    rw [countRequests_ok hcount, hpeer]
  | populate hcall =>
    refine sizeKept_bind inRange_aceAssert fun _ _ =>
      sizeKept_bind inRange_aceAssert fun _ _ => sizeKept_ok ?_
    simp [hn]

theorem Sized.withPeer {β : Type} {key : UInt32}
    {update : List Piece → PeerState → Except Fault (β × PeerState)} (h : Sized n s)
    (hupdate : ∀ peer, s.peerState key = some peer → SizeKept n (update s.pieces peer)) :
    InRange (withPeer cfg key update s) ∧
      ∀ b t out, withPeer cfg key update s = .ok (b, t, out) → Sized n t := by
  constructor
  · refine inRange_bind inRange_assertFound fun peer hpeer => ?_
    exact inRange_bind (hupdate peer (assertFound_ok.mp hpeer)).1 (by simp)
  · intro b t out hok
    obtain ⟨peer, peer', hpeer, hupdated, rfl, -⟩ := withPeer_ok.mp hok
    exact h.setPeer ((hupdate peer hpeer).2 b peer' hupdated)

/-- The transitions of a job that keeps to the size, apart from those that connect. -/
theorem transition_sized {l : Label} {r : Except Fault (SessionState × List Effect)}
    (h : Transition cfg job l t r) (hkeeps : KeepsSize cfg s job)
    (hserve : ∀ record block, job.call = .record record block → record.type = some .request →
      record.payload.index.toNat < s.pieces.length)
    (hconnect : job.call ≠ .connect)
    (hn : cfg.numberOfPieces = s.pieces.length) (hsized : Sized s.pieces.length t) :
    InRange r ∧ ∀ t' out, r = .ok (t', out) → Sized s.pieces.length t' := by
  have houtcome {β : Type} {x : Except Fault (β × SessionState × List Effect)} (hx : InRange x)
      (hok : ∀ b t' out, x = .ok (b, t', out) → Sized s.pieces.length t') :
      InRange (outcome x) ∧ ∀ t' out, outcome x = .ok (t', out) → Sized s.pieces.length t' := by
    refine ⟨fun herror => hx (outcome_error.mp herror), fun t' out heq => ?_⟩
    obtain ⟨b, hb⟩ := outcome_ok.mp heq
    exact hok b t' out hb
  cases h with
  | peer hupdate =>
    obtain ⟨hrange, hkept⟩ := hsized.withPeer fun peer hpeer =>
      hupdate.sizeKept hkeeps hn hsized.pieces (hsized.bitfields _ peer hpeer)
    exact houtcome hrange hkept
  | effects hpieces hpeers =>
    refine ⟨inRange_ok _, fun t' out heq => ?_⟩
    obtain ⟨rfl, -⟩ : _ = t' ∧ _ = out := by simpa using heq
    exact ⟨hpieces ▸ hsized.pieces, hpeers ▸ hsized.bitfields⟩
  | assertion => exact ⟨by simp, fun t' out heq => by cases heq⟩
  | pieceReceived hcall hlength htype =>
    have hindex := (hkeeps.2 _ _ hcall hlength).2.2.1 htype
    refine houtcome (inRange_pieceReceived (by rwa [hsized.pieces])) fun flags t' out hok => ?_
    cases (pieceReceived_outcome hok).1 with
    | unchanged => exact hsized
    | chunks chunks hpiece hmissing => exact ⟨by simpa using hsized.pieces, hsized.bitfields⟩
    | saved hpiece hmissing hhash hsave hresult =>
      exact ⟨by simpa using hsized.pieces, hsized.bitfields⟩
  | attachChunk hcall htype =>
    have hindex := hserve _ _ hcall htype
    refine houtcome (inRange_attachChunk (by rwa [hsized.pieces])) fun data t' out hok => ?_
    rcases attachChunk_ok hok with ⟨rfl, -⟩ | ⟨piece, loaded, -, -, -, rfl, -⟩
    · exact hsized
    · exact ⟨by simpa using hsized.pieces, hsized.bitfields⟩
  | insertConnection =>
    refine houtcome inRange_insertConnection fun b t' out hok => ?_
    obtain ⟨hpieces, hpeers, -⟩ := insertConnection_ok hok
    exact ⟨hpieces ▸ hsized.pieces, hpeers ▸ hsized.bitfields⟩
  | enterPeer hcall => exact absurd hcall hconnect
  | eraseConnection =>
    refine houtcome (inRange_bind inRange_assertFound (by simp)) fun b t' out hok => ?_
    obtain ⟨hpieces, hpeers, -⟩ := eraseConnection_ok hok
    exact ⟨hpieces ▸ hsized.pieces, hpeers ▸ hsized.bitfields⟩
  | leavePeer hcall =>
    refine houtcome (inRange_bind inRange_assertFound fun peer _ =>
      inRange_bind inRange_assertFound (by simp)) fun b t' out hok => ?_
    obtain ⟨peer, hpeer, -, hpieces, hpeers, -⟩ := leavePeer_ok hok
    refine ⟨hpieces ▸ hsized.pieces, fun key' peer' hpeer' => ?_⟩
    rw [hpeers] at hpeer'
    by_cases hkey : key' = job.key cfg
    · subst hkey
      rw [Function.update_self] at hpeer'
      split at hpeer'
      · cases hpeer'
      · obtain rfl := Option.some.inj hpeer'
        exact hsized.bitfields _ peer hpeer
    · rw [Function.update_of_ne hkey] at hpeer'
      exact hsized.bitfields key' peer' hpeer'

theorem AllScopes.sized {p : Handler Unit} (hp : p.AllScopes (Transition cfg job))
    (hkeeps : KeepsSize cfg s job)
    (hserve : ∀ record block, job.call = .record record block → record.type = some .request →
      record.payload.index.toNat < s.pieces.length)
    (hconnect : job.call ≠ .connect)
    (hn : cfg.numberOfPieces = s.pieces.length) (hsized : Sized s.pieces.length s) :
    p.Ensures s (fun _ t _ => Sized s.pieces.length t) (· ≠ .outOfRange) := by
  refine hp.ensures (Sized s.pieces.length) _ (fun l t t' out ht htransition => ?_)
    (fun l t e ht htransition => ?_) hsized
  · exact (transition_sized htransition hkeeps hserve hconnect hn ht).2 t' out rfl
  · have hrange := (transition_sized htransition hkeeps hserve hconnect hn ht).1
    exact inRange_error.mp hrange

theorem ensures_inRange {β : Type} {l : Label} {body : Scope β}
    {Q : β → SessionState → List Effect → Prop} (hrange : InRange (body s))
    (hok : ∀ b t out, body s = .ok (b, t, out) → Q b t out) :
    (Process.atomically l body : Handler β).Ensures s Q (· ≠ .outOfRange) := by
  rw [Process.ensures_atomically]
  split
  · rename_i hbody
    exact hok _ _ _ hbody
  · rename_i hbody
    rw [hbody] at hrange
    exact inRange_error.mp hrange

theorem ensures_refused {record : PeerRecord} (hrefused : ¬ Serves cfg s job record) :
    (Process.atomically ⟨job.id, .other⟩ (withPeer cfg (job.key cfg)
        fun _ peer => .ok (!peer.status.peerChoking, peer)) >>= fun sendPiece =>
      Process.guarded sendPiece (piece cfg job.env job.id record.payload.index
        record.payload.begin record.payload.length) : Handler Unit).Ensures s
      (fun _ t _ => t.pieces = s.pieces ∧ t.peerState = s.peerState) (· ≠ .outOfRange) := by
  have hsame {peer : PeerState} (hpeer : s.peerState (job.key cfg) = some peer) :
      (s.setPeer (job.key cfg) peer).peerState = s.peerState := by
    ext key
    rw [setPeer_peerState]
    split
    · rename_i hkey
      rw [hkey, hpeer]
    · rfl
  rw [Process.ensures_bind]
  refine ensures_inRange (inRange_bind inRange_assertFound (by simp [bind, Except.bind])) ?_
  intro sendPiece t out hok
  obtain ⟨peer, peer', hpeer, hread, rfl, rfl⟩ := withPeer_ok.mp hok
  obtain ⟨rfl, rfl⟩ : (!peer.status.peerChoking) = sendPiece ∧ peer = peer' := by simpa using hread
  rw [Process.ensures_guarded]
  split
  · rename_i hchoking
    have hchoking : peer.status.peerChoking = false := by simpa using hchoking
    unfold piece
    rw [Process.ensures_bind]
    refine ensures_inRange (inRange_bind inRange_aceAssert (by simp)) fun has t out hconnection => ?_
    obtain ⟨u, hassert, hconnection⟩ := fault_bind_ok.mp hconnection
    obtain ⟨rfl, rfl, rfl⟩ : job.env.hasConnection job.id = has ∧ _ = t ∧ [] = out := by
      simpa using hconnection
    -- what is served has a connection and, where that is asserted, a length
    have hnone : job.env.hasConnection job.id = false := by
      by_contra hsome
      refine hrefused ⟨⟨peer, hpeer, hchoking⟩, by simpa using hsome, ?_⟩
      simpa using aceAssert_ok.mp hassert
    rw [hnone]
    exact ⟨rfl, hsame hpeer⟩
  · exact ⟨rfl, hsame hpeer⟩

theorem notify_request_sized {record : PeerRecord} {block : Option MessageBlock}
    (hcall : job.call = .record record block) (htype : record.type = some .request)
    (hkeeps : KeepsSize cfg s job) (hn : cfg.numberOfPieces = s.pieces.length)
    (hsized : Sized s.pieces.length s) :
    (notify cfg job.env job.id record block).Ensures s
      (fun _ t _ => Sized s.pieces.length t) (· ≠ .outOfRange) := by
  by_cases hlength : record.length = 0
  · unfold notify
    rw [if_pos hlength]
    exact hsized
  · by_cases hserves : Serves cfg s job record
    · have hindex := (hkeeps.2 record block hcall hlength).2.2.2 htype hserves
      refine AllScopes.sized (allScopes_notify hcall) hkeeps (fun record' block' hcall' _ => ?_)
        (by rw [hcall]; simp) hn hsized
      obtain ⟨rfl, -⟩ := Call.record.inj (hcall.symm.trans hcall')
      exact hindex
    · unfold notify
      rw [if_neg hlength, htype]
      refine (ensures_refused hserves).mono (fun _ t _ ht => ?_) fun _ he => he
      exact ⟨by rw [ht.1], by rw [ht.2]; exact hsized.bitfields⟩

/-- A connection gets a bitfield before its handler ends. -/
theorem connect_sized (hn : cfg.numberOfPieces = s.pieces.length)
    (hsized : Sized s.pieces.length s) :
    (connect cfg env job.id).Ensures s (fun _ t _ => Sized s.pieces.length t)
      (· ≠ .outOfRange) := by
  unfold connect
  simp only [Process.ensures_bind]
  refine ensures_inRange inRange_insertConnection fun _ t₁ _ hinsert => ?_
  obtain ⟨hpieces, hpeers, -⟩ := insertConnection_ok hinsert
  have hsized₁ : Sized s.pieces.length t₁ := ⟨hpieces ▸ rfl, hpeers ▸ hsized.bitfields⟩
  refine ensures_inRange (by simp [enterPeer]) fun populate t₂ _ henter => ?_
  obtain ⟨rfl, rfl, -⟩ := enterPeer_ok henter
  have hrest {t : SessionState} (ht : Sized s.pieces.length t) :
      (Process.guarded (env.hasConnection job.id && env.canSendHandShake) (do
        emit ⟨job.id, .other⟩ [.handShake job.id cfg.handShake]
        Process.atomically ⟨job.id, .other⟩ fun s => .ok ((), s,
          if Tools.getPieceIndexes s.pieces false ≠ [] ∧ cfg.sendBitfieldAfterHandshake then
            transmit env job.id (.bitfield (pieceBitfield s.pieces))
          else [])) : Handler Unit).Ensures t (fun _ t _ => Sized s.pieces.length t)
        (· ≠ .outOfRange) := by
    rw [Process.ensures_guarded]
    split
    · exact ht
    · exact ht
  rw [Process.ensures_guarded]
  split
  · -- the bitfield is populated
    refine ensures_inRange ?_ fun _ t₃ _ hpopulate => hrest ?_
    · refine inRange_bind inRange_assertFound fun _ _ => inRange_bind ?_ (by simp)
      exact inRange_bind inRange_aceAssert fun _ _ => inRange_bind inRange_aceAssert (by simp)
    · obtain ⟨peer, peer', hpeer, hpopulated, rfl, -⟩ := withPeer_ok.mp hpopulate
      obtain ⟨_, -, hpopulated⟩ := fault_bind_ok.mp hpopulated
      obtain ⟨_, -, hpopulated⟩ := fault_bind_ok.mp hpopulated
      obtain rfl : _ = peer' := by simpa using hpopulated
      refine ⟨hsized₁.pieces, fun key' peer' hpeer' => ?_⟩
      rw [setPeer_peerState] at hpeer'
      split at hpeer'
      · obtain rfl := Option.some.inj hpeer'
        simp [hn]
      · rename_i hkey
        rw [setPeer_peerState, if_neg hkey] at hpeer'
        exact hsized₁.bitfields key' peer' hpeer'
  · -- the peer has been there with its bitfield
    rename_i hpopulated
    refine hrest (hsized₁.setPeer ?_)
    cases hpeer : t₁.peerState (connectionIdToPeerAddress cfg job.id) with
    | none => simp [hpeer] at hpopulated
    | some peer => simpa [hpeer] using hsized₁.bitfields _ peer hpeer

end Sized

def step (cfg : Configuration) (s : SessionState) (job : Job) : Except Fault SessionState :=
  (handle cfg s job).map Prod.fst

/-- The size of the torrent and of every bitfield, as a step keeps them. -/
structure TorrentSized (cfg : Configuration) (n : ℕ) (s : SessionState) : Prop where
  pieces : cfg.pieceHashesSize = pieceHashSize * n
  sized : Sized n s

theorem TorrentSized.handler {n : ℕ} {s : SessionState} {job : Job} (h : TorrentSized cfg n s)
    (hkeeps : KeepsSize cfg s job) :
    (job.handler cfg).Ensures s (fun _ t _ => Sized n t) (· ≠ .outOfRange) := by
  have hword : cfg.pieceHashesSize < 2 ^ 32 := hkeeps.1
  obtain rfl : s.pieces.length = n := h.sized.pieces
  have hsize := h.pieces
  have hn : cfg.numberOfPieces = s.pieces.length := by
    rw [Configuration.numberOfPieces, toNat_word hword, hsize]
    simp [pieceHashSize]
  cases hcall : job.call with
  | connect =>
    unfold Job.handler
    rw [hcall]
    exact connect_sized hn h.sized
  | record record block =>
    by_cases htype : record.type = some .request
    · unfold Job.handler
      rw [hcall]
      exact notify_request_sized hcall htype hkeeps hn h.sized
    · refine AllScopes.sized job.allScopes_handler hkeeps (fun record' block' hcall' htype' => ?_)
        (by rw [hcall]; simp) hn h.sized
      obtain ⟨rfl, -⟩ := Call.record.inj (hcall.symm.trans hcall')
      exact absurd htype' htype
  | _ =>
    refine AllScopes.sized job.allScopes_handler hkeeps (fun record block hrecord => ?_)
      (by rw [hcall]; simp) hn h.sized
    rw [hcall] at hrecord
    cases hrecord

theorem TorrentSized.step {n : ℕ} {s : SessionState} {job : Job} (h : TorrentSized cfg n s)
    (hkeeps : KeepsSize cfg s job) :
    (∀ t, Session.step cfg s job = .ok t → TorrentSized cfg n t) ∧
      ∀ e, Session.step cfg s job = .error e → e ≠ .outOfRange := by
  have hhandle := handle_ensures cfg (h.handler hkeeps)
  unfold Session.step
  cases hrun : handle cfg s job with
  | error e =>
    refine ⟨fun t ht => (by cases ht), fun e' he' => ?_⟩
    obtain rfl : e = e' := by simpa [Except.map] using he'
    exact hhandle.2 e hrun
  | ok r =>
    refine ⟨fun t ht => ?_, fun e' he' => by cases he'⟩
    obtain rfl : r.1 = t := by simpa [Except.map] using ht
    exact ⟨h.pieces, hhandle.1 r.1 r.2 hrun⟩

/-- In every run of jobs that keep to the size of the torrent, each recorded bitfield has
exactly the bytes of the torrent's pieces, and nothing is indexed out of range. -/
theorem run_inRange (cfg : Configuration) (s : SessionState) (hinit : Initialized cfg s)
    (jobs : List Job) (hkeeps : Runs.Along (step cfg) (KeepsSize cfg) s jobs) :
    (∀ t, Runs.run (step cfg) s jobs = .ok t → ∀ key peer, t.peerState key = some peer →
      peer.pieces.length = bitfieldLength s.pieces.length ∧
        ∀ i < s.pieces.length, ∃ has,
          havePiece cfg.ndebug (UInt32.ofNat i) peer.pieces = .ok has) ∧
      Runs.run (step cfg) s jobs ≠ .error .outOfRange := by
  have hsized : TorrentSized cfg s.pieces.length s :=
    ⟨hinit.pieces, rfl, fun key peer hpeer => by rw [hinit.peers] at hpeer; cases hpeer⟩
  constructor
  · intro t hrun
    have ht := Runs.run_invariant (TorrentSized cfg s.pieces.length)
      (fun t job t' h hjob hstep => (h.step hjob).1 t' hstep) hsized hkeeps hrun
    intro key peer hpeer
    have hlength := ht.sized.bitfields key peer hpeer
    refine ⟨hlength, fun i hi => ⟨_, havePiece_eq ?_⟩⟩
    have hbyte := div_lt_bitfieldLength hi
    have hindex : (UInt32.ofNat i).toNat ≤ i := by
      rw [UInt32.toNat_ofNat']
      exact Nat.mod_le _ _
    omega
  · intro hrun
    exact Runs.run_error (Q := (· ≠ Fault.outOfRange)) (TorrentSized cfg s.pieces.length)
      (fun t job t' h hjob hstep => (h.step hjob).1 t' hstep)
      (fun t job e h hjob hstep => (h.step hjob).2 e hstep) hsized hkeeps hrun rfl

/-- The sample torrent before its first connection, and a peer that connects and sends a
HAVE or a BITFIELD. -/
def sampleRecord (record : PeerRecord) : Job := ⟨1, .record record none, sampleEnvironment⟩

theorem run_inRange_bitfield :
    ∃ t, Runs.run (step (sampleConfiguration true)) (sampleSession [samplePiece false] [])
        [⟨1, .connect, sampleEnvironment⟩, sampleRecord ⟨2, some .bitfield, [0x80], ⟨0, 0, 0⟩⟩] =
          .ok t ∧
      ∃ peer, t.peerState 0x0A000001 = some peer ∧ peer.pieces.length = bitfieldLength 1 ∧
        ∃ has, havePiece true 0 peer.pieces = .ok has := by
  have hrun := (run_inRange (sampleConfiguration true) (sampleSession [samplePiece false] [])
    ⟨rfl, fun _ => rfl⟩
    [⟨1, .connect, sampleEnvironment⟩, sampleRecord ⟨2, some .bitfield, [0x80], ⟨0, 0, 0⟩⟩]
    ⟨⟨by decide, fun _ _ hcall _ => by cases hcall⟩, fun s hs => ⟨⟨by decide, fun _ _ hcall _ => by
      obtain rfl := Except.ok.inj hs
      obtain ⟨rfl, -⟩ := Call.record.inj hcall
      exact ⟨fun _ => rfl, nofun, nofun, nofun⟩⟩, fun _ _ => trivial⟩⟩).1 _ rfl 0x0A000001 _ rfl
  exact ⟨_, rfl, _, rfl, hrun.1, hrun.2 0 (by decide)⟩

/-- A HAVE for piece 8 of a torrent of one piece writes behind the bitfield. -/
theorem run_not_inRange :
    ¬ ∀ (cfg : Configuration) (s : SessionState), Initialized cfg s → ∀ jobs : List Job,
      (∀ t, Runs.run (step cfg) s jobs = .ok t → ∀ key peer, t.peerState key = some peer →
        peer.pieces.length = bitfieldLength s.pieces.length ∧
          ∀ i < s.pieces.length, ∃ has,
            havePiece cfg.ndebug (UInt32.ofNat i) peer.pieces = .ok has) ∧
        Runs.run (step cfg) s jobs ≠ .error .outOfRange := by
  intro h
  exact (h (sampleConfiguration true) (sampleSession [samplePiece false] []) ⟨rfl, fun _ => rfl⟩
    [⟨1, .connect, sampleEnvironment⟩, sampleRecord ⟨5, some .have, [], ⟨8, 0, 0⟩⟩]).2 rfl

end Session
end ACENetwork.BitTorrent
