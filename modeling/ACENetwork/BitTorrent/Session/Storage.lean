import ACENetwork.BitTorrent.Session.Transitions

/-!
# Pieces in memory and on disk

Over every interleaving of handlers: a piece counts as on disk only after a file with
its length and its hash has been written, unless a write stops short and the file can
still be closed; and a piece on disk has no chunks until it is read for a REQUEST.
-/
namespace ACENetwork.BitTorrent.Session
open Library Tools

variable {cfg : Configuration} {env : Environment} {s t : SessionState} {out : List Effect}

/-- A piece with the index has been written to a file, whole and with its hash. -/
def Written (cfg : Configuration) (effects : List Effect) (i : ℕ) (piece : Piece) : Prop :=
  ∃ index fileName data, index.toNat = i ∧ .write index fileName data ∈ effects ∧
    data.length = piece.length.toNat ∧ cfg.sha1 data = piece.hash

def OnDiskWritten (cfg : Configuration) (initial : List Piece) (effects : List Effect)
    (pieces : List Piece) : Prop :=
  ∀ i piece, pieces[i]? = some piece → piece.onDisk = true →
    (∃ first, initial[i]? = some first ∧ first.onDisk = true) ∨ Written cfg effects i piece

/-- The job's write of a piece does not stop short where its file can still be closed, or
the assertion behind `savePiece` is evaluated. -/
def WritesWhole (cfg : Configuration) (job : Job) : Prop :=
  cfg.ndebug = true → job.env.closed = true → job.env.transferred = none

theorem Written.mono {effects more : List Effect} {i : ℕ} {piece : Piece}
    (h : Written cfg effects i piece) : Written cfg (effects ++ more) i piece := by
  obtain ⟨index, fileName, data, hindex, hmem, hdata⟩ := h
  exact ⟨index, fileName, data, hindex, List.mem_append_left _ hmem, hdata⟩

/-- Storing a piece that is not on disk, or that has been written, keeps the property. -/
theorem OnDiskWritten.set {initial pieces : List Piece} {effects more : List Effect}
    {index : UInt32} {piece : Piece} (h : OnDiskWritten cfg initial effects pieces)
    (hpiece : piece.onDisk = true → Written cfg (effects ++ more) index.toNat piece) :
    OnDiskWritten cfg initial (effects ++ more) (pieces.set index.toNat piece) := by
  intro i p hp honDisk
  by_cases hi : index.toNat = i
  · subst hi
    obtain ⟨-, rfl⟩ : index.toNat < pieces.length ∧ piece = p := by
      simpa [List.getElem?_set] using hp
    exact .inr (hpiece honDisk)
  · rw [List.getElem?_set_ne hi] at hp
    exact (h i p hp honDisk).imp_right Written.mono

/-- A piece whose hash is right counts as on disk only when all of it has been written. -/
theorem savePiece_written {index : UInt32} {fileName : List Char} {piece : Piece}
    {saved : SavedPiece} {effects : List Effect}
    (hhash : validatePieceHash cfg.ndebug cfg.sha1 piece = .ok true)
    (hsave : savePiece env.toFileResults piece = .ok saved)
    (hresult : saved.result = true ∨ cfg.ndebug = true)
    (hwhole : cfg.ndebug = true → env.closed = true → env.transferred = none)
    (honDisk : saved.piece.onDisk = true) (hmissing : piece.onDisk = false) :
    Written cfg (effects ++ writeEffects index fileName saved.written) index.toNat saved.piece := by
  obtain ⟨hlength, hsha1⟩ := validatePieceHash_true hhash
  rcases savePiece_ok hsave with ⟨-, hpiece⟩ | ⟨hclosed, hpiece, data, hwritten, hprefix, hall, hdata⟩
  · rw [hpiece, hmissing] at honDisk
    cases honDisk
  · have hwhole : data = concatenate piece.chunks := by
      rcases hresult with htrue | hndebug
      · rw [htrue] at hdata
        have hsame : data.length = piece.length.toNat := by simpa using hdata.symm
        exact hprefix.eq_of_length (hsame.trans hlength.symm)
      · exact hall (hwhole hndebug hclosed)
    subst hwhole
    refine ⟨index, fileName, concatenate piece.chunks, rfl, ?_, ?_, ?_⟩
    · rw [hwritten]
      exact List.mem_append_right _ List.mem_cons_self
    · rw [hpiece]
      exact hlength
    · rw [hpiece]
      exact hsha1

theorem PieceOutcome.onDiskWritten {initial : List Piece} {effects : List Effect} {index : UInt32}
    (h : PieceOutcome cfg env index s t out) (hinv : OnDiskWritten cfg initial effects s.pieces)
    (hwhole : cfg.ndebug = true → env.closed = true → env.transferred = none) :
    OnDiskWritten cfg initial (effects ++ out) t.pieces := by
  cases h with
  | unchanged => simpa using hinv
  | chunks chunks hpiece hmissing =>
    refine hinv.set fun honDisk => ?_
    rw [isMissing_onDisk hmissing] at honDisk
    cases honDisk
  | saved hpiece hmissing hhash hsave hresult =>
    have hpiece := isMissing_onDisk hmissing
    exact hinv.set fun honDisk =>
      savePiece_written hhash hsave hresult hwhole honDisk hpiece

theorem OnDiskWritten.attachChunk {initial : List Piece} {effects : List Effect}
    {index begin length : UInt32} {data : Option (List UInt8)}
    (hinv : OnDiskWritten cfg initial effects s.pieces)
    (h : attachChunk cfg env index begin length s = .ok (data, t, out)) :
    OnDiskWritten cfg initial (effects ++ out) t.pieces := by
  rcases attachChunk_ok h with ⟨rfl, rfl⟩ | ⟨piece, loaded, hpiece, honDisk, hload, rfl, rfl⟩
  · simpa using hinv
  · intro i p hp hp'
    have hsame : loaded.piece.length = piece.length ∧ loaded.piece.hash = piece.hash := by
      rcases loadPiece_ok hload with ⟨hloaded, -⟩ | ⟨data, -, hloaded⟩ <;> simp [hloaded]
    by_cases hi : index.toNat = i
    · subst hi
      obtain ⟨-, rfl⟩ : index.toNat < s.pieces.length ∧ loaded.piece = p := by
        simpa [List.getElem?_set] using hp
      refine (hinv _ piece hpiece honDisk).imp_right fun hwritten => ?_
      simpa [Written, hsame.1, hsame.2] using hwritten.mono
    · rw [setPiece_pieces, List.getElem?_set_ne hi] at hp
      exact (hinv i p hp hp').imp_right Written.mono

/-- A piece that fails its hash check loses its chunks and nothing else changes. -/
def RejectsInvalid (cfg : Configuration) (s : SessionState) : Prop :=
  ∀ (env : Environment) (key index begin : UInt32) (block : MessageBlock) (piece : Piece)
    (chunks : List PieceChunk) (flags : Option PieceFlags) (t : SessionState) (out : List Effect),
    s.pieces[index.toNat]? = some piece → isMissing piece = true → env.duplicated = true →
    appendChunk cfg.sort piece.chunks ⟨block, begin⟩ = .ok chunks →
    isPieceComplete piece.length chunks = true →
    validatePieceHash cfg.ndebug cfg.sha1 { piece with chunks := chunks } = .ok false →
    pieceReceived cfg env key index begin (some block) s = .ok (flags, t, out) →
    t.pieces[index.toNat]? = some { piece with chunks := [], onDisk := false } ∧ out = [] ∧
      ∀ i, i ≠ index.toNat → t.pieces[i]? = s.pieces[i]?

theorem rejectsInvalid (cfg : Configuration) (s : SessionState) : RejectsInvalid cfg s := by
  intro env key index begin block piece chunks flags t out hpiece hmissing hduplicated hchunks
    hcomplete hhash h
  have hdone : ¬ (piece.onDisk || isPieceComplete piece.length piece.chunks) = true := by
    simpa [isMissing] using hmissing
  unfold pieceReceived at h
  simp only [hpiece, if_neg hdone, hduplicated, hchunks, Bool.not_true, Bool.false_eq_true,
    if_false] at h
  obtain ⟨chunks', hchunks', h⟩ := fault_bind_ok.mp h
  obtain rfl := Except.ok.inj hchunks'
  simp only [hcomplete, hhash, Bool.not_true, Bool.false_eq_true, if_false] at h
  obtain ⟨valid, hvalid, h⟩ := fault_bind_ok.mp h
  obtain rfl := Except.ok.inj hvalid
  obtain ⟨rfl, rfl, -⟩ := continuePiece_ok env h
  refine ⟨?_, rfl, fun i hi => ?_⟩
  · have hindex := (List.getElem?_eq_some_iff.mp hpiece).1
    have honDisk := isMissing_onDisk hmissing
    rw [setPiece_pieces, List.getElem?_set_self hindex, freeChunks]
    simp [honDisk]
  · rw [setPiece_pieces, List.getElem?_set_ne (Ne.symm hi)]

/-- Along every run whose writes are whole, a piece that has come to be on disk has been
written with its length and its hash, and a complete piece with another hash is dropped. -/
theorem pieces_verified (cfg : Configuration) (s : SessionState) (events : List (PoolEvent Job))
    (hfollows : Follows cfg { started := WritesWhole cfg } s events) (pool : SessionPool)
    (hrun : runPool cfg s events = .ok pool) :
    OnDiskWritten cfg s.pieces (effectsOf pool.history) pool.state.pieces ∧
      RejectsInvalid cfg pool.state := by
  refine ⟨?_, rejectsInvalid cfg pool.state⟩
  refine Pool.run_invariant
    (fun history t => OnDiskWritten cfg s.pieces (effectsOf history) t.pieces)
    (fun job => job.allScopes_handler) ?_ ?_ hfollows hrun
  · intro job history l t t' out hwhole hinv _ htransition
    rw [effectsOf_append_step]
    rcases transition_storage htransition rfl with
      hpieces | ⟨record, block, flags, -, -, hpiece⟩ | ⟨record, block, data, -, -, hattach⟩
    · rw [hpieces]
      exact fun i piece hpiece honDisk => (hinv i piece hpiece honDisk).imp_right Written.mono
    · exact (pieceReceived_outcome hpiece).1.onDiskWritten hinv hwhole
    · exact hinv.attachChunk hattach
  · intro i piece hpiece honDisk
    exact .inl ⟨piece, hpiece, honDisk⟩

/-- A peer sends the whole piece, and the write of its file stops where it is told to. -/
def sampleUpload (transferred : Option ℕ) : List (PoolEvent Job) :=
  [.start ⟨1, .record ⟨11, some .piece, [], ⟨0, 0, 0⟩⟩ (some ⟨[7, 8], []⟩),
    { sampleEnvironment with transferred := transferred }⟩, .schedule 0]

theorem pieces_verified_whole :
    ∃ pool, runPool (sampleConfiguration true)
        (sampleSession [samplePiece false] [(0x0A000001, { connections := [1] })])
        (sampleUpload none) = .ok pool ∧
      OnDiskWritten (sampleConfiguration true) [samplePiece false] (effectsOf pool.history)
        pool.state.pieces ∧
      RejectsInvalid (sampleConfiguration true) pool.state :=
  ⟨_, rfl, pieces_verified (sampleConfiguration true)
    (sampleSession [samplePiece false] [(0x0A000001, { connections := [1] })]) (sampleUpload none)
    ⟨fun _ _ => rfl, fun _ _ => ⟨fun _ _ => ⟨trivial, fun _ _ _ _ => trivial⟩,
      fun _ _ => trivial⟩⟩ _ rfl⟩

/-- One of two bytes is written and the file is closed: the piece counts as on disk. -/
theorem pieces_not_verified :
    ¬ ∀ (cfg : Configuration) (s : SessionState) (events : List (PoolEvent Job))
      (pool : SessionPool), runPool cfg s events = .ok pool →
        OnDiskWritten cfg s.pieces (effectsOf pool.history) pool.state.pieces ∧
          RejectsInvalid cfg pool.state := by
  intro h
  have hpieces := (h (sampleConfiguration true)
    (sampleSession [samplePiece false] [(0x0A000001, { connections := [1] })])
    (sampleUpload (some 1)) _ rfl).1
  rcases hpieces 0 (samplePiece true) rfl rfl with ⟨first, hfirst, honDisk⟩ |
    ⟨index, fileName, data, -, hmem, hlength, -⟩
  · obtain rfl : samplePiece false = first := Option.some.inj hfirst
    cases honDisk
  · obtain ⟨-, -, rfl⟩ := Effect.write.inj (List.mem_singleton.mp hmem)
    cases hlength

section Reading

def ReadOrEmpty (effects : List Effect) (pieces : List Piece) : Prop :=
  ∀ index : UInt32, ∀ piece, pieces[index.toNat]? = some piece → piece.onDisk = true →
    piece.chunks = [] ∨ ∃ data, Effect.read index data ∈ effects

/-- No REQUEST for a piece on disk is served once the file of the piece has been read. -/
def ServesUnread : Label → List (Step Label SessionState Effect) → SessionState → Prop
  | ⟨_, .serve index⟩, history, s => ∀ piece, s.pieces[index.toNat]? = some piece →
    piece.onDisk = true → ∀ data, Effect.read index data ∉ effectsOf history
  | _, _, _ => True

theorem ReadOrEmpty.append {effects more : List Effect} {pieces : List Piece}
    (h : ReadOrEmpty effects pieces) : ReadOrEmpty (effects ++ more) pieces := by
  intro index piece hpiece honDisk
  refine (h index piece hpiece honDisk).imp_right ?_
  rintro ⟨data, hdata⟩
  exact ⟨data, List.mem_append_left _ hdata⟩

theorem ReadOrEmpty.set {effects more : List Effect} {pieces : List Piece} {index : UInt32}
    {piece : Piece} (h : ReadOrEmpty effects pieces)
    (hpiece : piece.onDisk = true →
      piece.chunks = [] ∨ ∃ data, Effect.read index data ∈ effects ++ more) :
    ReadOrEmpty (effects ++ more) (pieces.set index.toNat piece) := by
  intro index' p hp honDisk
  by_cases hi : index = index'
  · subst hi
    obtain ⟨-, rfl⟩ : index.toNat < pieces.length ∧ piece = p := by
      simpa [List.getElem?_set] using hp
    exact hpiece honDisk
  · have hne : index.toNat ≠ index'.toNat := fun he => hi (UInt32.toNat_inj.mp he)
    rw [List.getElem?_set_ne hne] at hp
    exact h.append index' p hp honDisk

theorem PieceOutcome.readOrEmpty {effects : List Effect} {index : UInt32}
    (h : PieceOutcome cfg env index s t out) (hinv : ReadOrEmpty effects s.pieces) :
    ReadOrEmpty (effects ++ out) t.pieces := by
  cases h with
  | unchanged => exact hinv.append
  | chunks chunks hpiece hmissing =>
    refine hinv.set fun honDisk => ?_
    rw [isMissing_onDisk hmissing] at honDisk
    cases honDisk
  | saved hpiece hmissing hhash hsave hresult =>
    have honDisk := isMissing_onDisk hmissing
    refine hinv.set fun honDisk' => ?_
    rcases savePiece_ok hsave with ⟨-, hsaved⟩ | ⟨-, hsaved, -⟩
    · rw [hsaved, honDisk] at honDisk'
      cases honDisk'
    · exact .inl (by rw [hsaved]; rfl)

theorem ReadOrEmpty.attachChunk {effects : List Effect} {index begin length : UInt32}
    {data : Option (List UInt8)} (hinv : ReadOrEmpty effects s.pieces)
    (h : attachChunk cfg env index begin length s = .ok (data, t, out)) :
    ReadOrEmpty (effects ++ out) t.pieces := by
  rcases attachChunk_ok h with ⟨rfl, rfl⟩ | ⟨piece, loaded, hpiece, honDisk, hload, rfl, rfl⟩
  · exact hinv.append
  · refine hinv.set fun _ => ?_
    rcases loadPiece_ok hload with ⟨hloaded, -⟩ | ⟨read, hread, -⟩
    · rw [hloaded]
      refine (hinv index piece hpiece honDisk).imp_right ?_
      rintro ⟨data, hdata⟩
      exact ⟨data, List.mem_append_left _ hdata⟩
    · refine .inr ⟨read, List.mem_append_right _ ?_⟩
      rw [hread]
      exact List.mem_cons_self

theorem run_readOrEmpty {events : List (PoolEvent Job)} {pool : SessionPool}
    (hclean : ∀ piece ∈ s.pieces, piece.onDisk = true → piece.chunks = [])
    (hfollows : Follows cfg { enabled := ServesUnread } s events)
    (hrun : runPool cfg s events = .ok pool) :
    ReadOrEmpty (effectsOf pool.history) pool.state.pieces := by
  refine Pool.run_invariant (fun history t => ReadOrEmpty (effectsOf history) t.pieces)
    (fun job => job.allScopes_handler) ?_ ?_ hfollows hrun
  · intro job history l t t' out _ hinv _ htransition
    rw [effectsOf_append_step]
    rcases transition_storage htransition rfl with
      hpieces | ⟨record, block, flags, -, -, hpiece⟩ | ⟨record, block, data, -, -, hattach⟩
    · rw [hpieces]
      exact hinv.append
    · exact (pieceReceived_outcome hpiece).1.readOrEmpty hinv
    · exact hinv.attachChunk hattach
  · intro index piece hpiece honDisk
    exact .inl (hclean piece (List.mem_of_getElem? hpiece) honDisk)

/-- Along every run in which no piece is served from disk a second time, a REQUEST that is
about to be served finds what `loadPiece` asserts: a piece on disk has no chunks. -/
theorem loadPiece_precondition (cfg : Configuration) (s : SessionState)
    (hclean : ∀ piece ∈ s.pieces, piece.onDisk = true → piece.chunks = [])
    (events : List (PoolEvent Job)) (thread : ℕ)
    (hfollows : Follows cfg { enabled := ServesUnread } s (events ++ [.schedule thread]))
    (pool : SessionPool) (hrun : runPool cfg s events = .ok pool) (id : ConnectionId)
    (index : UInt32) (hlabel : pool.label? thread = some ⟨id, .serve index⟩) (piece : Piece)
    (hpiece : pool.state.pieces[index.toNat]? = some piece) (honDisk : piece.onDisk = true) :
    piece.chunks = [] := by
  have hinv := run_readOrEmpty hclean (hfollows.of_prefix (List.prefix_append _ _)) hrun
  have hunread := (Runs.Along.last hfollows hrun _ hlabel).1 piece hpiece honDisk
  rcases hinv index piece hpiece honDisk with hempty | ⟨data, hdata⟩
  · exact hempty
  · exact absurd hdata (hunread data)

/-- A session with the piece on disk and an unchoked peer, and a REQUEST for the piece. -/
def sampleServing : SessionState :=
  sampleSession [samplePiece true]
    [(0x0A000001, { connections := [1], status := { peerChoking := false } })]

def sampleRequest : Job :=
  ⟨1, .record ⟨13, some .request, [], ⟨0, 0, 2⟩⟩ none, sampleEnvironment⟩

theorem loadPiece_precondition_first :
    ∃ pool, runPool (sampleConfiguration false) sampleServing
        [.start sampleRequest, .schedule 0, .schedule 0] = .ok pool ∧
      pool.label? 0 = some ⟨1, .serve 0⟩ ∧ pool.state.pieces[0]? = some (samplePiece true) ∧
      (samplePiece true).chunks = [] :=
  ⟨_, rfl, rfl, rfl, loadPiece_precondition (sampleConfiguration false) sampleServing
    (fun _ hpiece _ => List.mem_singleton.mp hpiece ▸ rfl)
    [.start sampleRequest, .schedule 0, .schedule 0] 0
    ⟨trivial, fun _ h₁ => ⟨fun _ hl => by
      obtain rfl := Except.ok.inj h₁
      obtain rfl := Option.some.inj hl
      exact ⟨trivial, fun _ _ _ _ => trivial⟩, fun _ h₂ => ⟨fun _ hl => by
        obtain rfl := Except.ok.inj h₁
        obtain rfl := Except.ok.inj h₂
        obtain rfl := Option.some.inj hl
        exact ⟨trivial, fun _ _ _ _ => trivial⟩, fun _ h₃ => ⟨fun _ hl => by
          obtain rfl := Except.ok.inj h₁
          obtain rfl := Except.ok.inj h₂
          obtain rfl := Except.ok.inj h₃
          obtain rfl := Option.some.inj hl
          exact ⟨fun _ _ _ _ => List.not_mem_nil, fun _ _ _ _ => trivial⟩,
          fun _ _ => trivial⟩⟩⟩⟩
    _ rfl 1 0 rfl (samplePiece true) rfl rfl⟩

/-- The piece that a first REQUEST has read keeps its chunk when a second one comes. -/
theorem loadPiece_precondition_fails :
    ¬ ∀ (cfg : Configuration) (s : SessionState),
      (∀ piece ∈ s.pieces, piece.onDisk = true → piece.chunks = []) →
      ∀ (events : List (PoolEvent Job)) (thread : ℕ) (pool : SessionPool),
        runPool cfg s events = .ok pool → ∀ (id : ConnectionId) (index : UInt32),
        pool.label? thread = some ⟨id, .serve index⟩ → ∀ piece,
        pool.state.pieces[index.toNat]? = some piece → piece.onDisk = true →
        piece.chunks = [] := by
  intro h
  have hempty := h (sampleConfiguration false) sampleServing
    (fun _ hpiece _ => List.mem_singleton.mp hpiece ▸ rfl)
    [.start sampleRequest, .schedule 0, .schedule 0, .schedule 0,
      .start sampleRequest, .schedule 1, .schedule 1] 1 _ rfl 1 0 rfl
    { samplePiece true with chunks := [⟨⟨[7, 8], []⟩, 0⟩] } rfl rfl
  cases hempty

end Reading

end ACENetwork.BitTorrent.Session
