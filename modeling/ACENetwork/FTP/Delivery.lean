import ACENetwork.FTP.Replies

/-!
# When replies become records

Each reply of a well-formed sequence becomes one record with its code and its lines exactly where
its lines have not been cut, its lines repeat the code, its last text is not empty and nothing
follows it in its block.
-/
namespace ACENetwork.FTP
open BitTorrent (Fault)
open Library
open Library.Blocks (Piece Whole remaining)

variable {c next : Condition} {t v word rest more digits : Bytes} {p : Parse} {record : Record}
  {n : ℕ} {records : List (Record × ℕ)} {blocks blocks' : List Bytes} {r : Reply}
  {replies : List Reply}

theorem crlf_length : crlf.length = 2 := by decide

theorem readFrom_kind {b : UInt8}
    (hb : b = minus ∧ next = .multilineText ∨ b = space ∧ next = .text)
    (h : Piece [b] blocks blocks') :
    readFrom .textBegin v record n records blocks =
      readFrom next [] record (n + 1) records blocks' := by
  obtain ⟨rest, tail, rfl, rfl⟩ := h
  rcases hb with ⟨rfl, rfl⟩ | ⟨rfl, rfl⟩
  · exact readFrom_goOn (List.cons_ne_nil minus []) rfl
  · exact readFrom_goOn (List.cons_ne_nil space []) rfl

theorem exists_piece {b : UInt8} (hblocks : ∀ b ∈ blocks, b ≠ [])
    (hflatten : blocks.flatten = b :: more) : ∃ blocks', Piece [b] blocks blocks' := by
  obtain ⟨word, tail, rfl, -⟩ := Blocks.exists_cons_of_flatten hblocks hflatten
  exact ⟨_, word, tail, rfl, rfl⟩

section Opened

theorem replyCode_of_opened (hdigits : digits.length = 3 ∧ digits.all isDigit = true)
    (hblocks : ∀ b ∈ blocks, b ≠ []) (hflatten : blocks.flatten = digits ++ more)
    (h : readNext records v blocks = .opened p) : ∃ blocks', Piece digits blocks blocks' := by
  cases blocks with
  | nil =>
    have hlength := congrArg List.length hflatten
    rw [List.length_append, hdigits.1] at hlength
    have hnil : ([] : List Bytes).flatten.length = 0 := rfl
    omega
  | cons word tail =>
    cases hcode : codeOf word with
    | none =>
      rw [readNext_fails (hblocks word List.mem_cons_self) hcode] at h
      cases h
    | some code =>
      obtain ⟨digits', rest, rfl, hlength, -, -⟩ := codeOf_some hcode
      rw [List.flatten_cons, List.append_assoc] at hflatten
      obtain ⟨rfl, -⟩ := List.append_inj hflatten (hlength.trans hdigits.1.symm)
      exact ⟨_, rest, tail, rfl, rfl⟩

theorem singleLine_of_opened {last : Bytes} (hblocks : ∀ b ∈ blocks, b ≠ []) (hlast : IsPlain last)
    (hflatten : blocks.flatten = space :: last ++ (crlf ++ more))
    (h : readFrom .textBegin v record n records blocks = .opened p) :
    ∃ texts lost blocks', readFrom .textBegin v record n records blocks =
        readNext (records ++ [(⟨record.code, record.text ++ texts⟩, n + 1 + last.length + 2)]) []
          blocks' ∧
      more = lost ++ blocks'.flatten ∧ (∀ b ∈ blocks', b ≠ []) ∧
      (texts = [last] → lost = [] → ∃ blocks₁, Piece [space] blocks blocks₁ ∧
        Last last blocks₁ blocks') := by
  obtain ⟨blocks₁, hpiece⟩ := exists_piece hblocks hflatten
  have hflatten₁ : blocks₁.flatten = last ++ (crlf ++ more) :=
    List.append_cancel_left (hpiece.flatten.symm.trans hflatten)
  rw [readFrom_kind (Or.inr ⟨rfl, rfl⟩) hpiece] at h ⊢
  obtain ⟨texts, lost, blocks', hread, hmore, hblocks', -, hwhole⟩ :=
    last_of_opened (Or.inl rfl) (hpiece.nonempty hblocks) hlast hflatten₁ h
  exact ⟨texts, lost, blocks', hread, hmore, hblocks', fun htexts hlost =>
    ⟨blocks₁, hpiece, hwhole htexts hlost⟩⟩

theorem multiLine_of_opened {first last : Bytes} {middle : List Bytes}
    (hdigits : digits.length = 3 ∧ digits.all isDigit = true) (hfirst : IsPlain first)
    (hlast : IsPlain last) (hmiddle : ∀ line ∈ middle, IsPlain line ∧ ¬ digits ++ [space] <+: line)
    (hblocks : ∀ b ∈ blocks, b ≠ []) (hcode : record.code = decimalValue digits)
    (hflatten : blocks.flatten = minus :: first ++ (crlf ++ (content middle ++
      (digits ++ space :: last ++ (crlf ++ more)))))
    (h : readFrom .textBegin v record n records blocks = .opened p) :
    ∃ value texts lost blocks', readFrom .textBegin v record n records blocks =
        readNext (records ++ [(⟨record.code, record.text ++ value :: texts⟩, n + 1 + first.length +
          2 + (content middle ++ (digits ++ space :: last ++ crlf)).length)]) [] blocks' ∧
      more = lost ++ blocks'.flatten ∧ (∀ b ∈ blocks', b ≠ []) ∧
      3 + ((record.text ++ value :: texts).length + 1) ≤ Glr.maxItems ∧
      (∀ line ∈ middle, digits ++ [minus] <+: line) ∧
      (value = first → texts = middle.map (fun line => line.drop 4) ++ [last] → lost = [] →
        ∃ blocks₁ blocks₂ blocks₃ blocks₄, Piece [minus] blocks blocks₁ ∧
          Line first blocks₁ blocks₂ ∧ Middle digits middle blocks₂ blocks₃ ∧
          Piece (digits ++ [space]) blocks₃ blocks₄ ∧ Last last blocks₄ blocks') := by
  obtain ⟨blocks₁, hpiece⟩ := exists_piece hblocks hflatten
  have hflatten₁ := List.append_cancel_left (hpiece.flatten.symm.trans hflatten)
  rw [readFrom_kind (Or.inl ⟨rfl, rfl⟩) hpiece] at h ⊢
  obtain ⟨value, blocks₂, hread₁, hflatten₂, hblocks₂, -, hline⟩ :=
    line_of_opened (hpiece.nonempty hblocks) hfirst hflatten₁ h
  rw [hread₁] at h ⊢
  have hcode' : (record.push value).code = decimalValue digits := hcode
  obtain ⟨texts, lost, blocks', hread₂, hmore, hblocks', hfits, hcodes, hwhole⟩ :=
    lines_of_opened hdigits hlast hmiddle hblocks₂ hcode' hflatten₂ h
  refine ⟨value, texts, lost, blocks', ?_, hmore, hblocks', ?_, hcodes, fun hvalue htexts hlost => ?_⟩
  · rw [hread₂, List.append_cons record.text]
    rfl
  · rw [List.append_cons record.text]
    exact hfits
  · obtain ⟨blocks₃, blocks₄, hmiddle', hlast'⟩ := hwhole htexts hlost
    exact ⟨blocks₁, blocks₂, blocks₃, blocks₄, hpiece, hline hvalue, hmiddle', hlast'⟩

/-- A reply, where parsing goes on: it becomes a record, whatever has been read of its lines, and
all of its octets have been counted. -/
theorem reply_of_opened (hr : r.WellFormed) (hblocks : ∀ b ∈ blocks, b ≠ [])
    (hflatten : blocks.flatten = r.octets ++ more)
    (h : readNext records v blocks = .opened p) :
    ∃ delivered lost blocks', readNext records v blocks =
        readNext (records ++ [(delivered, r.octets.length)]) [] blocks' ∧
      more = lost ++ blocks'.flatten ∧ (∀ b ∈ blocks', b ≠ []) ∧
      (delivered = r.record → lost = [] → r.Readable blocks blocks') := by
  obtain ⟨digits, lines, last⟩ := r
  obtain ⟨hdigits, hlast, hlines⟩ := hr
  cases lines with
  | none =>
    have hsplit : Reply.octets ⟨digits, none, last⟩ ++ more =
        digits ++ (space :: last ++ (crlf ++ more)) := by
      simp [Reply.octets, Reply.lastLine]
    rw [hsplit] at hflatten
    obtain ⟨blocks₁, hpiece⟩ := replyCode_of_opened hdigits hblocks hflatten h
    have hflatten₁ := List.append_cancel_left (hpiece.flatten.symm.trans hflatten)
    rw [readNext_code hdigits hpiece] at h ⊢
    obtain ⟨texts, lost, blocks', hread, hmore, hblocks', hwhole⟩ :=
      singleLine_of_opened (hpiece.nonempty hblocks) hlast hflatten₁ h
    have hlength : 3 + 1 + last.length + 2 = (Reply.octets ⟨digits, none, last⟩).length := by
      simp only [Reply.octets, Reply.lastLine, List.length_append, List.length_cons, hdigits.1,
        crlf_length]
      omega
    rw [hlength] at hread
    refine ⟨_, lost, blocks', hread, hmore, hblocks', fun hrecord hlost => ?_⟩
    obtain ⟨blocks₂, hspace, hlast'⟩ := hwhole (Record.mk.inj hrecord).2 hlost
    exact ⟨blocks₁, hpiece, blocks₂, hspace, hlast'⟩
  | some lines =>
    obtain ⟨first, middle⟩ := lines
    obtain ⟨hfirst, hmiddle⟩ := hlines first middle rfl
    have hsplit : Reply.octets ⟨digits, some (first, middle), last⟩ ++ more =
        digits ++ (minus :: first ++ (crlf ++ (content middle ++
          (digits ++ space :: last ++ (crlf ++ more))))) := by
      simp [Reply.octets, Reply.lastLine]
    rw [hsplit] at hflatten
    obtain ⟨blocks₁, hpiece⟩ := replyCode_of_opened hdigits hblocks hflatten h
    have hflatten₁ := List.append_cancel_left (hpiece.flatten.symm.trans hflatten)
    rw [readNext_code hdigits hpiece] at h ⊢
    obtain ⟨value, texts, lost, blocks', hread, hmore, hblocks', hfits, hcodes, hwhole⟩ :=
      multiLine_of_opened hdigits hfirst hlast hmiddle (hpiece.nonempty hblocks) rfl hflatten₁ h
    have hlength : 3 + 1 + first.length + 2 +
        (content middle ++ (digits ++ space :: last ++ crlf)).length =
        (Reply.octets ⟨digits, some (first, middle), last⟩).length := by
      simp only [Reply.octets, Reply.lastLine, List.length_append, List.length_cons, hdigits.1,
        crlf_length]
      omega
    rw [hlength] at hread
    refine ⟨_, lost, blocks', hread, hmore, hblocks', fun hrecord hlost => ?_⟩
    have hdrop : middle.map (Reply.lineText ⟨digits, some (first, middle), last⟩) =
        middle.map (fun line => line.drop 4) :=
      List.map_congr_left fun line hline => if_pos (hcodes line hline)
    have htext : value :: texts = first :: (middle.map (fun line => line.drop 4) ++ [last]) := by
      rw [← hdrop]
      exact (Record.mk.inj hrecord).2
    obtain ⟨hvalue, htexts⟩ := List.cons.inj htext
    obtain ⟨blocks₂, blocks₃, blocks₄, blocks₅, hminus, hline, hmiddle', hspace, hlast'⟩ :=
      hwhole hvalue htexts hlost
    refine ⟨blocks₁, hpiece, ?_, blocks₂, blocks₃, blocks₄, blocks₅, hminus, hline, hmiddle', hspace,
      hlast'⟩
    rw [htext] at hfits
    simp only [List.nil_append, List.length_cons, List.length_append, List.length_map,
      List.length_nil] at hfits
    omega

end Opened

section Whole

/-- What a line end that has not been cut leaves of its block starts with it. -/
theorem rest_of_crlf {tail : List Bytes} (h : Piece crlf (remaining rest tail) blocks') :
    rest = [] ∨ ∃ rest', rest = carriageReturn :: rest' := by
  cases rest with
  | nil => exact Or.inl rfl
  | cons b rest =>
    obtain ⟨rest', tail', hcons, -⟩ := h
    rw [Blocks.remaining_cons] at hcons
    obtain ⟨rfl, -⟩ := List.cons.inj (List.cons.inj hcons).1
    exact Or.inr ⟨_, rfl⟩

theorem readFrom_whole (ht : IsPlain t) (hfits : (record.push t).Fits)
    (h : Line t blocks blocks') :
    readFrom .multilineText [] record n records blocks =
      readFrom .multilineTextBegin t (record.push t) (n + t.length + 2) records blocks' := by
  have hroom : record.Fits := by
    refine le_trans ?_ hfits
    simp [Record.push]
  obtain ⟨blocks₁, ⟨rest, tail, rfl, rfl⟩, hend⟩ := h
  by_cases hne : t = []
  · subst hne
    have hstart : readFrom .multilineText [] record n records (([] ++ rest) :: tail) =
        readFrom .multilineText [] record n records (remaining rest tail) :=
      (Blocks.read_remaining _ rest tail).symm
    rw [hstart, readFrom_lineEnd hend, if_pos hroom]
    rfl
  · rw [readFrom_run hne ht (rest_of_crlf hend), readFrom_lineEnd hend, if_pos hroom]

theorem readFrom_middle {lines : List Bytes}
    (hdigits : digits.length = 3 ∧ digits.all isDigit = true)
    (hlines : ∀ line ∈ lines, IsPlain line) (hcode : record.code = decimalValue digits)
    (hfits : 3 + (record.text.length + lines.length + 1) ≤ Glr.maxItems)
    (h : Middle digits lines blocks blocks') :
    ∃ v', readFrom .multilineTextBegin v record n records blocks =
      readFrom .multilineTextBegin v'
        ⟨record.code, record.text ++ lines.map fun line => line.drop 4⟩
        (n + (content lines).length) records blocks' := by
  induction h generalizing v record n with
  | nil blocks =>
    refine ⟨v, ?_⟩
    rw [List.map_nil, List.append_nil]
    rfl
  | @cons text lines blocks blocks₁ blocks₂ blocks₃ hpiece hline hrest ih =>
    have ht : IsPlain text := fun b hb => hlines _ List.mem_cons_self b (by simp [hb])
    have hroom : (record.push text).Fits := by
      refine le_trans ?_ hfits
      simp [Record.push]
    obtain ⟨v', hread⟩ := @ih text (record.push text) (n + 4 + text.length + 2)
      (fun line hline => hlines line (List.mem_cons_of_mem _ hline)) hcode (by
        refine le_trans (le_of_eq ?_) hfits
        simp only [Record.push, List.length_append, List.length_cons, List.length_nil]
        omega)
    refine ⟨v', ?_⟩
    have hlength : n + 4 + text.length + 2 + (content lines).length =
        n + (content ((digits ++ minus :: text) :: lines)).length := by
      simp only [content_cons, List.length_append, List.length_cons, hdigits.1, crlf_length]
      omega
    rw [readFrom_line hdigits (Or.inl ⟨rfl, rfl⟩) hcode hpiece, readFrom_whole ht hroom hline, hread,
      hlength, List.map_cons, drop_code hdigits.1, List.append_cons record.text]
    rfl

theorem Middle.codes {lines : List Bytes} (h : Middle digits lines blocks blocks') :
    ∀ line ∈ lines, digits ++ [minus] <+: line := by
  induction h with
  | nil blocks => exact fun line hline => absurd hline List.not_mem_nil
  | @cons text lines blocks blocks₁ blocks₂ blocks₃ hpiece hline hrest ih =>
    intro line hin
    rcases List.mem_cons.mp hin with rfl | hin
    · exact ⟨text, by simp⟩
    · exact ih line hin

theorem readFrom_last (hc : c = .text ∨ c = .lastLineText) (ht : IsPlain t)
    (hfits : (record.push t).Fits) (h : Last t blocks blocks') :
    readFrom c v record n records blocks =
      readNext (records ++ [(record.push t, n + t.length + 2)]) [] blocks' := by
  obtain ⟨hne, blocks₁, ⟨rest, tail, rfl, rfl⟩, hend⟩ := h
  have hroom : record.Fits := by
    refine le_trans ?_ hfits
    simp [Record.push]
  have hlast : readFrom c t (record.push t) (n + t.length) records (remaining rest tail) =
      readNext (records ++ [(record.push t, n + t.length + 2)]) [] blocks' := by
    have hread := @readFrom_lastEnd c t [] (record.push t) (n + t.length) records blocks' hc
    rw [List.append_nil, if_pos hfits] at hread
    rw [hend]
    exact hread
  rw [readFrom_lastRun hc hne ht (rest_of_crlf hend.piece), if_pos hroom, hlast]

theorem readNext_readable (hr : r.WellFormed) (h : r.Readable blocks blocks') :
    readNext records v blocks =
      readNext (records ++ [(r.record, r.octets.length)]) [] blocks' := by
  obtain ⟨digits, lines, last⟩ := r
  obtain ⟨hdigits, hlast, hlines⟩ := hr
  obtain ⟨blocks₁, hpiece, hrest⟩ := h
  rw [readNext_code hdigits hpiece]
  cases lines with
  | none =>
    obtain ⟨blocks₂, hspace, hend⟩ := hrest
    have hfits : (Record.push ⟨decimalValue digits, []⟩ last).Fits := show 3 + (1 + 1) ≤ 9998 by decide
    have hlength : 3 + 1 + last.length + 2 = (Reply.octets ⟨digits, none, last⟩).length := by
      simp only [Reply.octets, Reply.lastLine, List.length_append, List.length_cons, hdigits.1,
        crlf_length]
      omega
    rw [readFrom_kind (Or.inr ⟨rfl, rfl⟩) hspace,
      readFrom_last (Or.inl rfl) hlast hfits hend, hlength]
    rfl
  | some lines =>
    obtain ⟨first, middle⟩ := lines
    obtain ⟨hfirst, hmiddle⟩ := hlines first middle rfl
    obtain ⟨hfits, blocks₂, blocks₃, blocks₄, blocks₅, hminus, hline, hmiddle', hspace, hend⟩ := hrest
    have hdrop : middle.map (Reply.lineText ⟨digits, some (first, middle), last⟩) =
        middle.map (fun line => line.drop 4) :=
      List.map_congr_left fun line hline => if_pos (hmiddle'.codes line hline)
    have hfits₁ : Record.Fits ⟨decimalValue digits, [first]⟩ := show 3 + (1 + 1) ≤ 9998 by decide
    have hfits₂ : 3 + ([first].length + middle.length + 1) ≤ Glr.maxItems := by
      simp only [List.length_singleton]
      omega
    have hfits₃ : (Record.push
        ⟨decimalValue digits, first :: middle.map (fun line => line.drop 4)⟩ last).Fits := by
      simp only [Record.Fits, Record.push, List.length_append, List.length_cons, List.length_map,
        List.length_nil]
      omega
    obtain ⟨v', hread⟩ := @readFrom_middle first digits ⟨decimalValue digits, [first]⟩
      (3 + 1 + first.length + 2) records blocks₃ blocks₄ middle hdigits
      (fun line hline => (hmiddle line hline).1) rfl hfits₂ hmiddle'
    have hlength : 3 + 1 + first.length + 2 + (content middle).length + 4 + last.length + 2 =
        (Reply.octets ⟨digits, some (first, middle), last⟩).length := by
      simp only [Reply.octets, Reply.lastLine, List.length_append, List.length_cons, hdigits.1,
        crlf_length]
      omega
    have hrecord : Reply.record ⟨digits, some (first, middle), last⟩ =
        ⟨decimalValue digits, first :: middle.map (fun line => line.drop 4) ++ [last]⟩ :=
      congrArg (fun texts => Record.mk (decimalValue digits) (first :: texts ++ [last])) hdrop
    have hfirstLine := @readFrom_whole first ⟨decimalValue digits, []⟩ (3 + 1) records blocks₂ blocks₃
      hfirst hfits₁ hline
    have hcode := @readFrom_line .lastLineText v'
      ⟨decimalValue digits, first :: middle.map (fun line => line.drop 4)⟩
      (3 + 1 + first.length + 2 + (content middle).length) records blocks₄ blocks₅ digits hdigits space
      (Or.inr ⟨rfl, rfl⟩) rfl hspace
    rw [readFrom_kind (Or.inl ⟨rfl, rfl⟩) hminus]
    calc readFrom .multilineText [] ⟨decimalValue digits, []⟩ (3 + 1) records blocks₂
        = readFrom .multilineTextBegin v'
            ⟨decimalValue digits, first :: middle.map (fun line => line.drop 4)⟩
            (3 + 1 + first.length + 2 + (content middle).length) records blocks₄ :=
          hfirstLine.trans hread
      _ = readNext (records ++ [(Reply.record ⟨digits, some (first, middle), last⟩,
            3 + 1 + first.length + 2 + (content middle).length + 4 + last.length + 2)]) [] blocks' := by
          rw [hcode, readFrom_last (Or.inr rfl) hlast hfits₃ hend, hrecord]
          rfl
      _ = _ := by rw [hlength]

end Whole

section Replies

def octetsOf (replies : List Reply) : Bytes := (replies.map Reply.octets).flatten

def delivered (replies : List Reply) : List (Record × ℕ) :=
  replies.map fun r => (r.record, r.octets.length)

theorem sum_delivered (replies : List Reply) :
    ((delivered replies).map Prod.snd).sum = (octetsOf replies).length := by
  rw [delivered, octetsOf, List.length_flatten, List.map_map, List.map_map]
  rfl

theorem readNext_records (h : readNext records v blocks = .opened p) : records <+: p.records := by
  have hstart : records <+: Parse.records ⟨.initial, v, none, 0, records⟩ := List.prefix_refl records
  have hkeeps := Blocks.read_keeps (step_records records) hstart blocks
  rw [readNext] at h
  rw [h] at hkeeps
  exact hkeeps

theorem readNext_counted (h : readNext records v blocks = .opened p) :
    p.counted ≤ (records.map Prod.snd).sum + blocks.flatten.length := by
  have hwithin := Blocks.read_within step_within ⟨.initial, v, none, 0, records⟩ blocks
  rw [readNext] at h
  rw [h] at hwithin
  exact hwithin

/-- The first of the records that are delivered is the first one that is read. -/
theorem record_of_delivered {record : Record × ℕ}
    (h : records ++ [record] <+: records ++ delivered (r :: replies)) :
    record = (r.record, r.octets.length) := by
  have hcons := (List.prefix_append_right_inj records).mp h
  obtain ⟨tail, htail⟩ := hcons
  exact (List.cons.inj htail).1

/-- Replies that have all become their records have been readable: nothing has been lost, since the
octets of all of them have been counted. -/
theorem allReadable_of_delivered (hreplies : ∀ r ∈ replies, r.WellFormed)
    (hblocks : ∀ b ∈ blocks, b ≠ []) (hflatten : blocks.flatten = octetsOf replies)
    (h : readNext records v blocks = .opened p) (hrecords : p.records = records ++ delivered replies) :
    AllReadable replies blocks := by
  induction replies generalizing records v blocks with
  | nil =>
    cases blocks with
    | nil => exact .nil
    | cons block blocks =>
      have hnil := (List.append_eq_nil_iff.mp hflatten).1
      exact absurd hnil (hblocks block List.mem_cons_self)
  | cons r replies ih =>
    obtain ⟨record, lost, blocks', hread, hmore, hblocks', hreadable⟩ :=
      reply_of_opened (hreplies r List.mem_cons_self) hblocks hflatten h
    rw [hread] at h
    have hprefix := readNext_records h
    rw [hrecords] at hprefix
    have hrecord := record_of_delivered hprefix
    have hlost : lost = [] := by
      have hcounted := readNext_counted h
      have hlength := congrArg List.length hmore
      rw [Parse.counted, hrecords, List.map_append, List.sum_append, sum_delivered, octetsOf,
        List.map_cons, List.flatten_cons, List.length_append] at hcounted
      rw [List.map_append, List.sum_append, List.map_singleton, List.sum_singleton] at hcounted
      rw [List.length_append] at hlength
      have hlength' : ((replies.map Reply.octets).flatten).length =
          lost.length + blocks'.flatten.length := hlength
      refine List.eq_nil_of_length_eq_zero ?_
      omega
    subst hlost
    rw [hrecord] at h
    refine .cons (hreadable (Prod.mk.inj hrecord).1 rfl) ?_
    refine ih (fun r hr => hreplies r (List.mem_cons_of_mem _ hr)) hblocks' hmore.symm h ?_
    rw [hrecords, List.append_assoc]
    rfl

theorem readNext_allReadable (hreplies : ∀ r ∈ replies, r.WellFormed) (h : AllReadable replies blocks) :
    ∃ v', readNext records v blocks = .opened ⟨.initial, v', none, 0, records ++ delivered replies⟩ := by
  induction h generalizing records v with
  | nil => exact ⟨v, by rw [delivered, List.map_nil, List.append_nil]; rfl⟩
  | @cons r replies blocks blocks' hreadable hrest ih =>
    obtain ⟨v', hread⟩ := @ih [] (records ++ [(r.record, r.octets.length)])
      (fun r hr => hreplies r (List.mem_cons_of_mem _ hr))
    refine ⟨v', ?_⟩
    rw [readNext_readable (hreplies r List.mem_cons_self) hreadable, hread, List.append_assoc]
    rfl

end Replies

/-- Replies in whatever blocks are delivered exactly where each of them is readable. -/
theorem delivers_iff (replies : List Reply) (blocks : List Bytes)
    (hreplies : ∀ r ∈ replies, r.WellFormed) (hblocks : ∀ b ∈ blocks, b ≠ [])
    (hflatten : blocks.flatten = octetsOf replies) :
    Delivers replies blocks ↔ AllReadable replies blocks := by
  constructor
  · rintro ⟨p, hreceive, -, -, hrecords⟩
    have hread : readNext [] [] blocks = .opened p := hreceive
    exact allReadable_of_delivered hreplies hblocks hflatten hread hrecords
  · intro h
    obtain ⟨v', hread⟩ := @readNext_allReadable [] [] blocks replies hreplies h
    exact ⟨_, hread, rfl, rfl, rfl⟩

instance Reply.WellFormed.decidable (r : Reply) : Decidable r.WellFormed :=
  decidable_of_iff ((r.digits.length = 3 ∧ r.digits.all isDigit = true) ∧ IsPlain r.last ∧
      ∀ lines ∈ r.lines, IsPlain lines.1 ∧
        ∀ line ∈ lines.2, IsPlain line ∧ ¬ r.digits ++ [space] <+: line)
    ⟨fun ⟨h₁, h₂, h₃⟩ => ⟨h₁, h₂, fun first middle h => h₃ (first, middle) h⟩,
      fun ⟨h₁, h₂, h₃⟩ => ⟨h₁, h₂, fun lines h => h₃ lines.1 lines.2 h⟩⟩

/-- A greeting of three lines, and a reply whose code is in a block of its own. -/
def greeting : List Reply :=
  [⟨text "220", some (text "a", [text "220-b"]), text "c"⟩, ⟨text "331", none, text "d"⟩]

theorem greeting_delivered :
    Delivers greeting [text "220-a" ++ crlf ++ text "220-", text "b" ++ crlf, text "220 c" ++ crlf,
      text "331", text " d" ++ crlf] := by
  refine (delivers_iff greeting _ (by decide +kernel) (by decide +kernel) (by decide +kernel)).mpr ?_
  refine .cons ⟨_, ⟨_, _, rfl, rfl⟩, by decide, _, _, _, _, ⟨_, _, rfl, rfl⟩,
    ⟨_, ⟨_, _, rfl, rfl⟩, _, _, rfl, rfl⟩,
    .cons ⟨_, _, rfl, rfl⟩ ⟨_, ⟨_, _, rfl, rfl⟩, _, _, rfl, rfl⟩ (.nil _), ⟨_, _, rfl, rfl⟩,
    by decide, _, ⟨_, _, rfl, rfl⟩, rfl⟩ ?_
  exact .cons ⟨_, ⟨_, _, rfl, rfl⟩, _, ⟨_, _, rfl, rfl⟩, by decide, _, ⟨_, _, rfl, rfl⟩, rfl⟩ .nil

/-- A line that does not repeat the code: an assertion fails. -/
theorem plain_line_not_delivered :
    Reply.WellFormed ⟨text "220", some (text "a", [text "b"]), text "c"⟩ ∧
    receive [Reply.octets ⟨text "220", some (text "a", [text "b"]), text "c"⟩] =
      .closed (.fault .assertion) ∧
    ¬ Delivers [⟨text "220", some (text "a", [text "b"]), text "c"⟩]
      [Reply.octets ⟨text "220", some (text "a", [text "b"]), text "c"⟩] := by
  have hfails : receive [Reply.octets ⟨text "220", some (text "a", [text "b"]), text "c"⟩] =
      .closed (.fault .assertion) := by decide
  refine ⟨by decide +kernel, hfails, ?_⟩
  rintro ⟨p, hreceive, -⟩
  rw [hfails] at hreceive
  cases hreceive

end ACENetwork.FTP
