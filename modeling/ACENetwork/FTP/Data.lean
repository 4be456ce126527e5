import ACENetwork.FTP.Scanner
import ACENetwork.Library.Runs

/-!
# The data connection

`FTP_Module_Parser_Data_T` with its scanner and grammar: the worker takes one block after the
other. It scans the first ones, and hands the others on once raw data has been seen. A listing is
scanned line by line, until the session ends.
-/
namespace ACENetwork.FTP
open BitTorrent (Fault)
open Library
open Library.Blocks (Progress)

inductive DataState where
  | initial
  | listDirectory
  | listFile
  | data
  deriving DecidableEq, Repr

inductive RecordType where
  | directory
  | file
  | data
  deriving DecidableEq, Repr

def RecordType.state : RecordType → DataState
  | .directory => .listDirectory
  | .file => .listFile
  | .data => .data

inductive DataCondition where
  | initial
  | listDirectory
  | listFile
  | data
  deriving DecidableEq, Repr

variable {Entry : Type}

structure Message (Entry : Type) where
  type : RecordType
  entries : List Entry
  content : Bytes
  deriving DecidableEq

/-- The parser module and its worker. `value` is the string of the token; a block that has not been
handed on is a fragment of the head. -/
structure Worker (Entry : Type) where
  condition : DataCondition := .initial
  value : Bytes := []
  offset : ℕ := 0
  head : List Bytes := []
  entries : List Entry := []
  forwardImmediately : Bool := false
  pushed : List (Message Entry) := []

/-- `offset_` is an `unsigned int`. -/
def Worker.advance (w : Worker Entry) (length : ℕ) : Worker Entry :=
  { w with offset := (w.offset + length) % 2 ^ 32 }

/-- `headFragment_->total_length ()`. -/
def Worker.availableBytes (w : Worker Entry) : ℕ := w.head.flatten.length

def Worker.push (w : Worker Entry) (type : RecordType) (content : Bytes) : Worker Entry :=
  { w with pushed := w.pushed ++ [⟨type, w.entries, content⟩] }

/-- `directory` and `file`: `parseFileEntry` gives no entry for an invalid one. -/
def Worker.list (parseFileEntry : Bytes → Option Entry) (type : RecordType) (w : Worker Entry) :
    Worker Entry :=
  let w : Worker Entry :=
    { w with
      forwardImmediately := false
      entries := w.entries ++ (parseFileEntry w.value).toList }
  { w.push type [] with entries := [] }

def Worker.data (w : Worker Entry) : Worker Entry :=
  let w : Worker Entry := { w with forwardImmediately := true }
  { w.push .data w.head.flatten with head := [] }

section Step

variable (parseFileEntry : Bytes → Option Entry) (state : DataState)

def listRule (type : RecordType) (w : Worker Entry) (text : Bytes) :
    Progress (Worker Entry) Fault × ℕ :=
  if crlf <+: text then
    (.opened (Worker.list parseFileEntry type { w.advance 2 with condition := .initial }), 2)
  else if (text.takeWhile isPlain).length = 0 then (.closed .assertion, 1)
  else
    (.opened { w.advance (text.takeWhile isPlain).length with
        value := w.value ++ cString (text.takeWhile isPlain) },
      (text.takeWhile isPlain).length)

/-- The rule of `data`. Raw data ends the parser, whatever is left of the block. -/
def dataRule (w : Worker Entry) (text : Bytes) : Progress (Worker Entry) Fault × ℕ :=
  let w := w.advance 1
  if w.offset = w.availableBytes then
    (.opened (Worker.data { w with condition := .initial }), text.length)
  else (.opened w, 1)

/-- The rule of `INITIAL`, which gives the octet back. -/
def Worker.begin (w : Worker Entry) : Worker Entry :=
  match w.condition, state with
  | .initial, .listDirectory => { w with condition := .listDirectory, value := [] }
  | .initial, .listFile => { w with condition := .listFile, value := [] }
  | .initial, .data => { w with condition := .data }
  | _, _ => w

def Worker.step (w : Worker Entry) (text : Bytes) : Progress (Worker Entry) Fault × ℕ :=
  match (w.begin state).condition with
  | .listDirectory => listRule parseFileEntry .directory (w.begin state) text
  | .listFile => listRule parseFileEntry .file (w.begin state) text
  | .data => dataRule (w.begin state) text
  | .initial => (.closed .assertion, 1)

/-- `scan_bytes` adds the end of the buffer to a length that is an `int`. -/
def overhead (useYYScanBuffer : Bool) : ℕ := if useYYScanBuffer then 0 else 2

/-- `svc` and `waitBuffer`: a block is handed on; or it becomes a fragment of the head, and the
parser starts with it or goes on with it. -/
def Worker.receive (useYYScanBuffer : Bool) (w : Worker Entry) (block : Bytes) :
    Except Fault (Worker Entry) :=
  if w.forwardImmediately then .ok (w.push .data block)
  -- `scan_begin`
  else if 2 ^ 31 ≤ block.length + overhead useYYScanBuffer then .error .signedOverflow
  else
    match Blocks.scan (Worker.step parseFileEntry state) { w with
        head := w.head ++ [block]
        offset := if w.head = [] then 0 else w.offset } 0 block with
    | .opened w => .ok w
    | .closed fault => .error fault

end Step

def lineMessage (parseFileEntry : Bytes → Option Entry) (type : RecordType) (line : Bytes) :
    Message Entry :=
  ⟨type, (parseFileEntry line).toList, []⟩

/-- What a transfer delivers: raw data as it is, a listing line by line, whatever the entries. -/
def Transfers (useYYScanBuffer : Bool) (type : RecordType) (blocks : List Bytes) : Prop :=
  ∀ (Entry : Type) (parseFileEntry : Bytes → Option Entry),
    ∃ w, Runs.run (Worker.receive parseFileEntry type.state useYYScanBuffer) {} blocks = .ok w ∧
      if type = .data then (w.pushed.map Message.content).flatten = blocks.flatten
      else w.pushed =
        (splitLines [] blocks.flatten).1.map (lineMessage parseFileEntry type)

def Fits (useYYScanBuffer : Bool) (block : Bytes) : Prop :=
  block.length + overhead useYYScanBuffer < 2 ^ 31

instance Fits.decidable (useYYScanBuffer : Bool) (block : Bytes) :
    Decidable (Fits useYYScanBuffer block) :=
  inferInstanceAs (Decidable (_ < _))

/-- Raw data whose first block fits; a listing whose blocks fit and have whole line ends, with no
other carriage return or line feed, and no NUL in a line. -/
def Intact (useYYScanBuffer : Bool) (type : RecordType) (blocks : List Bytes) : Prop :=
  if type = .data then ∀ block ∈ blocks.head?, Fits useYYScanBuffer block
  else (∀ block ∈ blocks, Fits useYYScanBuffer block ∧ Unbroken block) ∧
    ∀ line ∈ (splitLines [] blocks.flatten).1, 0 ∉ line

section Listing

variable (parseFileEntry : Bytes → Option Entry) {useYYScanBuffer : Bool} {type : RecordType}
  {w : Worker Entry} {line text rest : Bytes}

/-- What is read of a line: it ends with the first NUL of a run. -/
def Kept (kept line : Bytes) : Prop := 0 ∉ kept ∧ (0 ∉ line → kept = line)

structure Worker.Reads (type : RecordType) (w : Worker Entry) (line : Bytes) : Prop where
  value : w.condition = .initial ∧ line = [] ∨
    (w.condition = .listDirectory ∧ type = .directory ∨ w.condition = .listFile ∧ type = .file) ∧
      Kept w.value line
  entries : w.entries = []
  forward : w.forwardImmediately = false

theorem zero_notMem_cString (s : Bytes) : 0 ∉ cString s := fun hin => by
  have hne := List.mem_takeWhile_imp hin
  simp at hne

theorem cString_eq (h : 0 ∉ text) : cString text = text :=
  List.takeWhile_eq_self_iff.mpr fun _ hb => bne_iff_ne.mpr fun hzero => h (hzero ▸ hb)

theorem Kept.append {kept : Bytes} (h : Kept kept line) (run : Bytes) :
    Kept (kept ++ cString run) (line ++ run) := by
  refine ⟨fun hin => ?_, fun hzero => ?_⟩
  · rcases List.mem_append.mp hin with hin | hin
    · exact h.1 hin
    · exact zero_notMem_cString run hin
  · rw [List.mem_append, not_or] at hzero
    rw [h.2 hzero.1, cString_eq hzero.2]

theorem Worker.Reads.step_eq (htype : type ≠ .data) (h : w.Reads type line) (text : Bytes) :
    ∃ w' : Worker Entry, w.step parseFileEntry type.state text =
        listRule parseFileEntry type w' text ∧
      (w'.condition = .listDirectory ∧ type = .directory ∨
        w'.condition = .listFile ∧ type = .file) ∧ Kept w'.value line ∧
      w'.entries = [] ∧ w'.forwardImmediately = false ∧ w'.pushed = w.pushed := by
  have hnil : Kept [] [] := ⟨List.not_mem_nil, fun _ => rfl⟩
  obtain ⟨⟨hcondition, rfl⟩ | ⟨⟨hcondition, rfl⟩ | ⟨hcondition, rfl⟩, hkept⟩, hentries, hforward⟩ := h
  · cases type with
    | directory =>
      refine ⟨{ w with condition := .listDirectory, value := [] }, ?_, Or.inl ⟨rfl, rfl⟩, hnil,
        hentries, hforward, rfl⟩
      simp only [Worker.step, Worker.begin, hcondition, RecordType.state]
    | file =>
      refine ⟨{ w with condition := .listFile, value := [] }, ?_, Or.inr ⟨rfl, rfl⟩, hnil,
        hentries, hforward, rfl⟩
      simp only [Worker.step, Worker.begin, hcondition, RecordType.state]
    | data => exact absurd rfl htype
  · refine ⟨w, ?_, Or.inl ⟨hcondition, rfl⟩, hkept, hentries, hforward, rfl⟩
    simp only [Worker.step, Worker.begin, hcondition]
  · refine ⟨w, ?_, Or.inr ⟨hcondition, rfl⟩, hkept, hentries, hforward, rfl⟩
    simp only [Worker.step, Worker.begin, hcondition]

theorem scan_lineEnd (htype : type ≠ .data) (h : w.Reads type line) (rest : Bytes) :
    ∃ (w' : Worker Entry) (kept : Bytes),
      Blocks.scan (Worker.step parseFileEntry type.state) w 0 (crlf ++ rest) =
        Blocks.scan (Worker.step parseFileEntry type.state) w' 0 rest ∧
      w'.Reads type [] ∧ Kept kept line ∧
      w'.pushed = w.pushed ++ [lineMessage parseFileEntry type kept] := by
  obtain ⟨w', hstep, -, hkept, hentries, -, hpushed⟩ := h.step_eq parseFileEntry htype (crlf ++ rest)
  rw [listRule, if_pos (List.prefix_append crlf rest)] at hstep
  refine ⟨_, w'.value, Blocks.scan_opened (by decide) hstep, ⟨Or.inl ⟨rfl, rfl⟩, rfl, rfl⟩, hkept, ?_⟩
  simp only [Worker.list, Worker.push, Worker.advance, hentries, hpushed, List.nil_append]
  rfl

theorem scan_run (htype : type ≠ .data) (h : w.Reads type line) {run : Bytes} (hne : run ≠ [])
    (hrun : ∀ b ∈ run, isPlain b = true) (htake : (run ++ rest).takeWhile isPlain = run) :
    ∃ w' : Worker Entry, Blocks.scan (Worker.step parseFileEntry type.state) w 0 (run ++ rest) =
        Blocks.scan (Worker.step parseFileEntry type.state) w' 0 rest ∧
      w'.Reads type (line ++ run) ∧ w'.pushed = w.pushed := by
  obtain ⟨w', hstep, hcondition, hkept, hentries, hforward, hpushed⟩ := h.step_eq parseFileEntry htype (run ++ rest)
  have hcrlf : ¬ crlf <+: run ++ rest := by
    obtain ⟨b, run, rfl⟩ := List.exists_cons_of_ne_nil hne
    exact not_crlf_of_plain (hrun b List.mem_cons_self) _
  have hlength : run.length ≠ 0 := fun hzero => hne (List.eq_nil_of_length_eq_zero hzero)
  rw [listRule, if_neg hcrlf, htake, if_neg hlength] at hstep
  exact ⟨_, Blocks.scan_opened hne hstep, ⟨Or.inr ⟨hcondition, hkept.append run⟩, hentries, hforward⟩,
    hpushed⟩

theorem scan_broken (htype : type ≠ .data) (h : w.Reads type line) {c : UInt8}
    (hc : isPlain c = false) (hcrlf : ¬ crlf <+: c :: rest) :
    Blocks.scan (Worker.step parseFileEntry type.state) w 0 (c :: rest) = .closed .assertion := by
  obtain ⟨w', hstep, -⟩ := h.step_eq parseFileEntry htype (c :: rest)
  have htake : (c :: rest).takeWhile isPlain = [] := List.takeWhile_cons_of_neg (by simp [hc])
  rw [listRule, if_neg hcrlf, htake, if_pos List.length_nil] at hstep
  exact Blocks.scan_closed (List.cons_ne_nil c rest) hstep

/-- What a block leaves of a listing: its lines, or a failed assertion where a line end is broken. -/
theorem scan_listing (htype : type ≠ .data) (h : w.Reads type line) :
    (Unbroken text → ∃ (w' : Worker Entry) (kept : List Bytes),
      Blocks.scan (Worker.step parseFileEntry type.state) w 0 text = .opened w' ∧
      w'.Reads type (splitLines line text).2 ∧ List.Forall₂ Kept kept (splitLines line text).1 ∧
      w'.pushed = w.pushed ++ kept.map (lineMessage parseFileEntry type)) ∧
    (¬ Unbroken text →
      Blocks.scan (Worker.step parseFileEntry type.state) w 0 text = .closed .assertion) := by
  induction hlength : text.length using Nat.strong_induction_on generalizing w line text with
  | _ k ih =>
    subst hlength
    rcases text_cases text with rfl | ⟨tail, rfl⟩ | ⟨c, tail, rfl, hc, hcrlf⟩ |
      ⟨run, tail, hne, hrun, rfl, htake⟩
    · exact ⟨fun _ => ⟨w, [], rfl, h, .nil, (List.append_nil _).symm⟩,
        fun hbroken => absurd (by decide) hbroken⟩
    · obtain ⟨w', kept, hscan, hreads, hkept, hpushed⟩ := scan_lineEnd parseFileEntry htype h tail
      obtain ⟨hwhole, hbroken⟩ := ih tail.length (by simp [crlf]) hreads rfl
      rw [unbroken_crlf, hscan, splitLines_crlf]
      refine ⟨fun hunbroken => ?_, hbroken⟩
      obtain ⟨w₂, keeps, hscan₂, hreads₂, hkeeps, hpushed₂⟩ := hwhole hunbroken
      refine ⟨w₂, kept :: keeps, hscan₂, hreads₂, .cons hkept hkeeps, ?_⟩
      rw [hpushed₂, hpushed, List.append_assoc]
      rfl
    · exact ⟨fun hunbroken => absurd hunbroken (not_unbroken hc hcrlf),
        fun _ => scan_broken parseFileEntry htype h hc hcrlf⟩
    · obtain ⟨w', hscan, hreads, hpushed⟩ := scan_run parseFileEntry htype h hne hrun htake
      have hpos := List.length_pos_iff.mpr hne
      have htail := ih tail.length (by simp; omega) hreads rfl
      rw [unbroken_run hrun, hscan, splitLines_plain line hrun, ← hpushed]
      exact htail

theorem receive_listing (htype : type ≠ .data) (h : w.Reads type line) (block : Bytes) :
    (Fits useYYScanBuffer block ∧ Unbroken block → ∃ (w' : Worker Entry) (kept : List Bytes),
      w.receive parseFileEntry type.state useYYScanBuffer block = .ok w' ∧
      w'.Reads type (splitLines line block).2 ∧ List.Forall₂ Kept kept (splitLines line block).1 ∧
      w'.pushed = w.pushed ++ kept.map (lineMessage parseFileEntry type)) ∧
    (¬ (Fits useYYScanBuffer block ∧ Unbroken block) → ∃ fault : Fault,
      w.receive parseFileEntry type.state useYYScanBuffer block = .error fault) := by
  have hstart : Worker.Reads type { w with
      head := w.head ++ [block]
      offset := if w.head = [] then 0 else w.offset } line := ⟨h.value, h.entries, h.forward⟩
  obtain ⟨hwhole, hbroken⟩ := @scan_listing _ parseFileEntry _ _ _ block htype hstart
  have hforward : ¬ w.forwardImmediately = true := by
    rw [h.forward]
    exact Bool.false_ne_true
  rw [Worker.receive, if_neg hforward]
  by_cases hfits : Fits useYYScanBuffer block
  · rw [if_neg (not_le.mpr hfits)]
    refine ⟨fun ⟨_, hunbroken⟩ => ?_, fun hnot => ⟨.assertion, ?_⟩⟩
    · obtain ⟨w', kept, hscan, hrest⟩ := hwhole hunbroken
      exact ⟨w', kept, by rw [hscan], hrest⟩
    · rw [hbroken fun hunbroken => hnot ⟨hfits, hunbroken⟩]
  · rw [if_pos (not_lt.mp hfits)]
    exact ⟨fun h => absurd h.1 hfits, fun _ => ⟨.signedOverflow, rfl⟩⟩

/-- A listing with no broken line end: each line is delivered as what is kept of it. -/
theorem run_unbroken (htype : type ≠ .data) (h : w.Reads type line) {blocks : List Bytes}
    (hblocks : ∀ block ∈ blocks, Fits useYYScanBuffer block ∧ Unbroken block) :
    ∃ (w' : Worker Entry) (kept : List Bytes),
      Runs.run (Worker.receive parseFileEntry type.state useYYScanBuffer) w blocks = .ok w' ∧
      List.Forall₂ Kept kept (splitLines line blocks.flatten).1 ∧
      w'.pushed = w.pushed ++ kept.map (lineMessage parseFileEntry type) := by
  induction blocks generalizing w line with
  | nil => exact ⟨w, [], rfl, .nil, (List.append_nil _).symm⟩
  | cons block blocks ih =>
    have hblock := hblocks block List.mem_cons_self
    obtain ⟨w', kept, hreceive, hreads, hkept, hpushed⟩ :=
      (receive_listing parseFileEntry htype h block).1 hblock
    obtain ⟨w₂, keeps, hrun, hkeeps, hpushed₂⟩ :=
      ih hreads fun block hin => hblocks block (List.mem_cons_of_mem _ hin)
    refine ⟨w₂, kept ++ keeps, Runs.run_cons_ok.mpr ⟨w', hreceive, hrun⟩, ?_, ?_⟩
    · rw [List.flatten_cons, splitLines_append line hblock.2]
      exact List.rel_append hkept hkeeps
    · rw [hpushed₂, hpushed, List.append_assoc, List.map_append]

theorem run_broken (htype : type ≠ .data) (h : w.Reads type line) {blocks : List Bytes}
    (hblocks : ¬ ∀ block ∈ blocks, Fits useYYScanBuffer block ∧ Unbroken block) :
    ∃ fault : Fault,
      Runs.run (Worker.receive parseFileEntry type.state useYYScanBuffer) w blocks =
        .error fault := by
  induction blocks generalizing w line with
  | nil => exact absurd (fun block hin => absurd hin List.not_mem_nil) hblocks
  | cons block blocks ih =>
    obtain ⟨hwhole, hbroken⟩ := receive_listing parseFileEntry htype h block
    by_cases hblock : Fits useYYScanBuffer block ∧ Unbroken block
    · obtain ⟨w', -, hreceive, hreads, -⟩ := hwhole hblock
      have hrest : ¬ ∀ other ∈ blocks, Fits useYYScanBuffer other ∧ Unbroken other := by
        intro hrest
        refine hblocks fun other hin => ?_
        rcases List.mem_cons.mp hin with rfl | hin
        · exact hblock
        · exact hrest other hin
      obtain ⟨fault, hrun⟩ := ih hreads hrest
      exact ⟨fault, Runs.run_cons_error.mpr (Or.inr ⟨w', hreceive, hrun⟩)⟩
    · obtain ⟨fault, hreceive⟩ := hbroken hblock
      exact ⟨fault, Runs.run_cons_error.mpr (Or.inl hreceive)⟩

theorem reads_start (type : RecordType) : Worker.Reads type ({} : Worker Entry) [] :=
  ⟨Or.inl ⟨rfl, rfl⟩, rfl, rfl⟩

theorem kept_eq {kept lines : List Bytes} (h : List.Forall₂ Kept kept lines)
    (hlines : ∀ line ∈ lines, 0 ∉ line) : kept = lines := by
  induction h with
  | nil => rfl
  | cons hkept _ ih =>
    rw [hkept.2 (hlines _ List.mem_cons_self),
      ih fun line hin => hlines line (List.mem_cons_of_mem _ hin)]

theorem zero_notMem_kept {kept lines : List Bytes} (h : List.Forall₂ Kept kept lines) :
    ∀ line ∈ kept, 0 ∉ line := by
  induction h with
  | nil => exact fun line hin => absurd hin List.not_mem_nil
  | cons hkept _ ih =>
    intro line hin
    rcases List.mem_cons.mp hin with rfl | hin
    · exact hkept.1
    · exact ih line hin

end Listing

theorem transfers_listing (useYYScanBuffer : Bool) {type : RecordType} (htype : type ≠ .data)
    (blocks : List Bytes) : Transfers useYYScanBuffer type blocks ↔
      (∀ block ∈ blocks, Fits useYYScanBuffer block ∧ Unbroken block) ∧
        ∀ line ∈ (splitLines [] blocks.flatten).1, 0 ∉ line := by
  constructor
  · intro h
    obtain ⟨w, hrun, hpushed⟩ := h Bytes some
    rw [if_neg htype] at hpushed
    have hblocks : ∀ block ∈ blocks, Fits useYYScanBuffer block ∧ Unbroken block := by
      by_contra hbroken
      obtain ⟨fault, hfails⟩ := run_broken some htype (reads_start type) hbroken
      cases hrun.symm.trans hfails
    obtain ⟨w', kept, hrun', hkept, hpushed'⟩ := run_unbroken some htype (reads_start type) hblocks
    obtain rfl := Except.ok.inj (hrun.symm.trans hrun')
    have hinj : Function.Injective (lineMessage (some : Bytes → Option Bytes) type) := by
      intro line line' heq
      exact (List.cons.inj (Message.mk.inj heq).2.1).1
    have heq : kept = (splitLines [] blocks.flatten).1 :=
      List.map_injective_iff.mpr hinj (hpushed'.symm.trans hpushed)
    exact ⟨hblocks, heq ▸ zero_notMem_kept hkept⟩
  · rintro ⟨hblocks, hlines⟩ Entry parseFileEntry
    obtain ⟨w, kept, hrun, hkept, hpushed⟩ :=
      run_unbroken parseFileEntry htype (reads_start type) hblocks
    refine ⟨w, hrun, ?_⟩
    rw [if_neg htype, hpushed, kept_eq hkept hlines]
    rfl

section RawData

variable (parseFileEntry : Bytes → Option Entry) {useYYScanBuffer : Bool} {w : Worker Entry}
  {text : Bytes} {blocks : List Bytes}

theorem step_data (hcondition : w.condition = .initial ∨ w.condition = .data) (text : Bytes) :
    w.step parseFileEntry .data text = dataRule { w with condition := .data } text := by
  obtain ⟨condition, value, offset, head, entries, forward, pushed⟩ := w
  rcases hcondition with rfl | rfl <;> rfl

theorem dataRule_last (h : (w.offset + 1) % 2 ^ 32 = w.availableBytes) (text : Bytes) :
    dataRule w text =
      (.opened (Worker.data { w.advance 1 with condition := .initial }), text.length) := if_pos h

theorem dataRule_more (h : ¬ (w.offset + 1) % 2 ^ 32 = w.availableBytes) (text : Bytes) :
    dataRule w text = (.opened (w.advance 1), 1) := if_neg h

/-- The octets that are left of the block are the ones that have not been counted. -/
theorem scan_data (hcondition : w.condition = .initial ∨ w.condition = .data)
    (havailable : w.availableBytes < 2 ^ 32) (hoffset : w.offset + text.length = w.availableBytes)
    (hne : text ≠ []) :
    Blocks.scan (Worker.step parseFileEntry .data) w 0 text = .opened
      { w with
        condition := .initial
        offset := w.availableBytes
        head := []
        forwardImmediately := true
        pushed := w.pushed ++ [⟨.data, w.entries, w.head.flatten⟩] } := by
  induction text generalizing w with
  | nil => exact absurd rfl hne
  | cons b text ih =>
    have hlength : (b :: text).length = text.length + 1 := List.length_cons
    have hcount : (w.offset + 1) % 2 ^ 32 = w.offset + 1 := Nat.mod_eq_of_lt (by omega)
    have hmatch := step_data parseFileEntry hcondition (b :: text)
    cases text with
    | nil =>
      have hall : w.offset + 1 = w.availableBytes := hoffset
      have hrule := @dataRule_last _ { w with condition := .data } (hcount.trans hall) [b]
      rw [Blocks.scan, hmatch, hrule, Worker.advance]
      simp only [hall, Nat.mod_eq_of_lt havailable]
      rfl
    | cons d text =>
      have hmore : ¬ (w.offset + 1) % 2 ^ 32 = w.availableBytes := by
        have htwo : (b :: d :: text).length = text.length + 2 := rfl
        rw [hcount]
        omega
      have hrule := @dataRule_more _ { w with condition := .data } hmore (b :: d :: text)
      rw [Blocks.scan, hmatch, hrule, Worker.advance]
      simp only [hcount]
      have hoffset' : w.offset + 1 + (d :: text).length = w.availableBytes := by omega
      exact ih (Or.inr rfl) havailable hoffset' (List.cons_ne_nil d text)

theorem receive_data {block : Bytes} (hne : block ≠ []) (hfits : Fits useYYScanBuffer block) :
    ∃ w : Worker Entry, Worker.receive parseFileEntry .data useYYScanBuffer {} block = .ok w ∧
      w.forwardImmediately = true ∧ w.pushed.map Message.content = [block] := by
  have hall : Worker.availableBytes ({ head := [block] } : Worker Entry) = block.length := by
    rw [Worker.availableBytes, List.flatten_singleton]
  have hlength : block.length < 2 ^ 32 := (Nat.le_add_right _ _).trans_lt (hfits.trans (by decide))
  have hscan := @scan_data Entry parseFileEntry { head := [block] } block (Or.inl rfl)
    (hall ▸ hlength) ((Nat.zero_add _).trans hall.symm) hne
  have hreceive : Worker.receive parseFileEntry .data useYYScanBuffer {} block = .ok
      { condition := .initial, offset := block.length, forwardImmediately := true,
        pushed := [⟨.data, [], block⟩] } := by
    rw [Worker.receive, if_neg Bool.false_ne_true, if_neg (not_le.mpr hfits)]
    simp only [List.nil_append, if_true, hscan, hall, List.flatten_singleton]
  exact ⟨_, hreceive, rfl, rfl⟩

theorem run_forward (hforward : w.forwardImmediately = true) (blocks : List Bytes) :
    ∃ w' : Worker Entry,
      Runs.run (Worker.receive parseFileEntry .data useYYScanBuffer) w blocks = .ok w' ∧
      (w'.pushed.map Message.content).flatten =
        (w.pushed.map Message.content).flatten ++ blocks.flatten := by
  induction blocks generalizing w with
  | nil => exact ⟨w, rfl, (List.append_nil _).symm⟩
  | cons block blocks ih =>
    obtain ⟨w', hrun, hpushed⟩ := @ih (w.push .data block) hforward
    have hreceive : w.receive parseFileEntry .data useYYScanBuffer block =
        .ok (w.push .data block) := if_pos hforward
    refine ⟨w', Runs.run_cons_ok.mpr ⟨_, hreceive, hrun⟩, ?_⟩
    rw [hpushed]
    simp [Worker.push]

end RawData

theorem transfers_data (useYYScanBuffer : Bool) {blocks : List Bytes}
    (hblocks : ∀ block ∈ blocks, block ≠ []) :
    Transfers useYYScanBuffer .data blocks ↔ ∀ block ∈ blocks.head?, Fits useYYScanBuffer block := by
  cases blocks with
  | nil => exact iff_of_true (fun Entry parseFileEntry => ⟨{}, rfl, rfl⟩) (fun block h => by cases h)
  | cons block blocks =>
    have hne := hblocks block List.mem_cons_self
    constructor
    · intro h other hother
      obtain rfl : block = other := Option.some.inj hother
      by_contra hlong
      obtain ⟨w, hrun, -⟩ := h Bytes some
      obtain ⟨w', hreceive, -⟩ := Runs.run_cons_ok.mp hrun
      rw [Worker.receive, if_neg Bool.false_ne_true, if_pos (not_lt.mp hlong)] at hreceive
      cases hreceive
    · intro h Entry parseFileEntry
      obtain ⟨w, hreceive, hforward, hfirst⟩ := receive_data parseFileEntry hne (h block rfl)
      obtain ⟨w', hrun, hpushed⟩ := run_forward parseFileEntry hforward blocks
      refine ⟨w', Runs.run_cons_ok.mpr ⟨w, hreceive, hrun⟩, ?_⟩
      rw [if_pos rfl, hpushed, hfirst, List.flatten_singleton, List.flatten_cons]

/-- A transfer in whatever blocks is delivered exactly where its blocks are intact. -/
theorem transfers_iff (useYYScanBuffer : Bool) (type : RecordType) (blocks : List Bytes)
    (hblocks : ∀ block ∈ blocks, block ≠ []) :
    Transfers useYYScanBuffer type blocks ↔ Intact useYYScanBuffer type blocks := by
  by_cases htype : type = .data
  · subst htype
    rw [transfers_data useYYScanBuffer hblocks, Intact, if_pos rfl]
  · rw [transfers_listing useYYScanBuffer htype, Intact, if_neg htype]

instance Intact.decidable (useYYScanBuffer : Bool) (type : RecordType) (blocks : List Bytes) :
    Decidable (Intact useYYScanBuffer type blocks) := by
  unfold Intact
  infer_instance

/-- A listing of two lines in three blocks. -/
theorem two_lines_transferred :
    Transfers false .directory [text "a", text "b" ++ crlf ++ text "c", crlf] :=
  (transfers_iff false .directory _ (by decide)).mpr (by decide)

/-- A line end that is cut between its octets: an assertion fails. -/
theorem cut_line_end_not_transferred :
    (∀ block ∈ [text "a" ++ [carriageReturn], [lineFeed]], block ≠ []) ∧
    Runs.run (Worker.receive (some : Bytes → Option Bytes) .listDirectory false) {}
      [text "a" ++ [carriageReturn], [lineFeed]] = .error .assertion ∧
    ¬ Transfers false .directory [text "a" ++ [carriageReturn], [lineFeed]] := by
  have hfails : Runs.run (Worker.receive (some : Bytes → Option Bytes) .listDirectory false) {}
      [text "a" ++ [carriageReturn], [lineFeed]] = .error .assertion := rfl
  refine ⟨by decide, hfails, fun h => ?_⟩
  obtain ⟨w, hrun, -⟩ := h Bytes some
  rw [RecordType.state, hfails] at hrun
  cases hrun

end ACENetwork.FTP
