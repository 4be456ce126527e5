import ACENetwork.SMTP.Replies

/-!
# When replies become records

Each reply of a well-formed sequence becomes one record with its code and its texts exactly where
its lines have not been cut, its last text is not empty and nothing follows it in its block.
-/
namespace ACENetwork.SMTP.Parser
open BitTorrent (Fault)
open FTP (IsPlain codeOf cString minus space)
open Library
open Library.Blocks (Piece Whole remaining)

variable {c : Condition} {t v digits more rest : Bytes} {p : Parse} {record : Reply} {coded : Bool}
  {n : ℕ} {records : List (Reply × ℕ)} {tail blocks : List Bytes}

section Growing

/-- The record that is delivered next has these texts in front. -/
def Growing (records : List (Reply × ℕ)) (texts : List Bytes) (p : Parse) : Prop :=
  (p.records = records ∧ ∃ record, p.record = some record ∧ texts <+: record.text) ∨
    ∃ entry, records ++ [entry] <+: p.records ∧ texts <+: entry.1.text

variable {texts : List Bytes} {entry : Reply × ℕ}

theorem Growing.accept {p' : Parse} {token : Token} (h : Growing records texts p)
    (haccept : p.accept token = .ok p') : Growing records texts p' := by
  rcases h with ⟨hrecords, record, hrecord, htexts⟩ | ⟨entry, hentry, htexts⟩
  · cases token with
    | replyCode code =>
      simp only [Parse.accept, hrecord] at haccept
      split_ifs at haccept
      obtain ⟨-, rfl⟩ := accept_reserve haccept
      exact .inl ⟨hrecords, record, rfl, htexts⟩
    | replyText value =>
      simp only [Parse.accept, hrecord] at haccept
      obtain ⟨-, rfl⟩ := accept_reserve haccept
      exact .inl ⟨hrecords, _, rfl, htexts.trans (List.prefix_append _ _)⟩
    | reply =>
      simp only [Parse.accept, hrecord] at haccept
      split_ifs at haccept
      obtain ⟨-, rfl⟩ := accept_reserve haccept
      refine .inr ⟨(record, p.scanned), ?_, htexts⟩
      rw [hrecords]
  · exact .inr ⟨entry, hentry.trans (Parse.accept_ok haccept).2, htexts⟩

theorem step_growing (p : Parse) (text : Bytes) (h : Growing records texts p) :
    Blocks.Keeps (Growing records texts) (fun _ => True) (step p text).1 := by
  rw [step]
  cases rule p text with
  | goOn next value length => exact h
  | fails => trivial
  | give token next value length =>
    simp only
    cases haccept : Parse.accept { p with
        condition := resume text length next, value := value
        scanned := p.scanned + length } token with
    | error e => trivial
    | ok p' =>
      have hstart : Growing records texts { p with
        condition := resume text length next, value := value
        scanned := p.scanned + length } := h
      exact hstart.accept haccept

/-- What comes next in a list comes next in all that it begins. -/
theorem snoc_prefix_unique {α : Type} {l front : List α} {a b : α} (ha : front ++ [a] <+: l)
    (hb : front ++ [b] <+: l) : a = b := by
  have hle : (front ++ [a]).length ≤ (front ++ [b]).length := by simp
  have heq := ( List.prefix_of_prefix_length_le ha hb hle).eq_of_length (by simp)
  exact List.singleton_inj.mp (List.append_cancel_left heq)

theorem texts_of_opened
    (h : Blocks.read step ⟨c, v, some record, coded, n, records⟩ blocks = .opened p)
    (hrecords : records ++ [entry] <+: p.records) : record.text <+: entry.1.text := by
  have hstart : Growing records record.text ⟨c, v, some record, coded, n, records⟩ :=
    .inl ⟨rfl, record, rfl, List.prefix_refl _⟩
  have hkeeps := Blocks.read_keeps step_growing hstart blocks
  rw [h] at hkeeps
  rcases hkeeps with ⟨hsame, -⟩ | ⟨entry', hentry', htexts⟩
  · rw [hsame] at hrecords
    have hle := hrecords.length_le
    rw [List.length_append, List.length_singleton] at hle
    omega
  · rw [snoc_prefix_unique hrecords hentry']
    exact htexts

theorem readNext_records (h : readNext records v blocks = .opened p) : records <+: p.records := by
  have hstart : records <+: Parse.records ⟨.initial, v, none, false, 0, records⟩ :=
    List.prefix_refl records
  have hkeeps := Blocks.read_keeps (step_records records) hstart blocks
  rw [readNext] at h
  rw [h] at hkeeps
  exact hkeeps

end Growing

section Cut

variable {left r : Bytes} {entry : Reply × ℕ}

theorem cut_cases (h : r ++ left = t ++ (crlf ++ more)) :
    (∃ rest, r = t ++ (crlf ++ rest) ∧ more = rest ++ left) ∨
      (r = t ++ [carriageReturn] ∧ left = lineFeed :: more) ∨
      ∃ t', t = r ++ t' ∧ left = t' ++ (crlf ++ more) := by
  rcases List.append_eq_append_iff.mp h with ⟨t', rfl, hleft⟩ | ⟨r', rfl, hleft⟩
  · exact .inr (.inr ⟨t', rfl, hleft⟩)
  · rcases r' with _ | ⟨b, _ | ⟨d, rest⟩⟩
    · exact .inr (.inr ⟨[], by simp, hleft.symm⟩)
    · obtain ⟨rfl, hfeed⟩ := List.cons.inj hleft
      exact .inr (.inl ⟨rfl, hfeed.symm⟩)
    · obtain ⟨rfl, hfeed⟩ := List.cons.inj hleft
      obtain ⟨rfl, hmore⟩ := List.cons.inj hfeed
      exact .inl ⟨rest, rfl, hmore⟩

theorem codeOf_other {b : UInt8} (hb : isDigit b = false) (rest : Bytes) :
    codeOf (b :: rest) = none := by
  refine if_neg fun h => ?_
  have hall := List.all_eq_true.mp h.2 b (by simp)
  cases hb.symm.trans hall

theorem readLine_other {b : UInt8} (hblocks : ∀ b ∈ blocks, b ≠ []) (hb : isDigit b = false)
    (hflatten : blocks.flatten = b :: more) :
    readLine v record coded n records blocks = .closed (.fault .assertion) := by
  obtain ⟨word, tail, rfl, -⟩ := Blocks.exists_cons_of_flatten hblocks hflatten
  exact readLine_fails (List.cons_ne_nil b word) (codeOf_other hb word)

theorem readLine_coded (hblocks : ∀ b ∈ blocks, b ≠ []) (hne : blocks ≠ []) :
    readLine v record true n records blocks ≠ .opened p := by
  obtain ⟨word, tail, rfl⟩ := List.exists_cons_of_ne_nil hne
  intro h
  cases hcode : codeOf word with
  | none =>
    rw [readLine_fails (hblocks word List.mem_cons_self) hcode] at h
    cases h
  | some code =>
    obtain ⟨digits, rest, rfl, hlength, hall, -⟩ := FTP.codeOf_some hcode
    rw [readLine_repeated ⟨hlength, hall⟩] at h
    cases h

theorem ne_nil_of_lineEnd (h : blocks.flatten = t ++ (crlf ++ more)) : blocks ≠ [] := by
  rintro rfl
  simp [crlf] at h

/-- A block that ends within the text of a continued line. -/
theorem readIn_cutText (hr : IsPlain r) : ∃ v' n',
    readIn .multilineText v record coded n records r tail =
      readLine v' record coded n' records tail := by
  by_cases hne : r = []
  · subst hne
    exact ⟨v, n, readIn_nil⟩
  · have hrun : readIn .multilineText v record coded n records (r ++ []) tail =
        readIn .multilineTextCr (v ++ r) record coded (n + r.length) records [] tail :=
      readIn_run hne hr (.inl rfl)
    rw [List.append_nil] at hrun
    exact ⟨v ++ r, n + r.length, hrun.trans readIn_nil⟩

/-- A block that ends within the line end of a continued line. -/
theorem readIn_cutEnd (hr : IsPlain r) : ∃ v' n',
    readIn .multilineText v record coded n records (r ++ [carriageReturn]) tail =
      readLine v' record coded n' records tail := by
  by_cases hne : r = []
  · subst hne
    obtain ⟨v', hread⟩ : ∃ v', readIn .multilineText v record coded n records [carriageReturn] tail =
        readLine v' record coded (n + 1) records tail := readIn_return (.inl rfl)
    exact ⟨v', n + 1, hread⟩
  · obtain ⟨v', hread⟩ : ∃ v', readIn .multilineTextCr (v ++ r) record coded (n + r.length) records
        [carriageReturn] tail = readLine v' record coded (n + r.length + 1) records tail :=
      readIn_return (.inr rfl)
    exact ⟨v', _, (readIn_run hne hr (.inr ⟨[], rfl⟩)).trans hread⟩

theorem readIn_wholeText (ht : IsPlain t) :
    readIn .multilineText [] record coded n records (t ++ (crlf ++ rest)) tail =
      if Fits record (1 + coded.toNat) then
        readLine t (push record t) false (n + t.length + 2) records (rest :: tail)
      else .closed .memoryExhausted := by
  by_cases hne : t = []
  · subst hne
    exact readIn_lineEnd (.inl rfl)
  · have hrun : readIn .multilineText [] record coded n records (t ++ (crlf ++ rest)) tail =
        readIn .multilineTextCr ([] ++ t) record coded (n + t.length) records (crlf ++ rest) tail :=
      readIn_run hne ht (.inr ⟨lineFeed :: rest, rfl⟩)
    rw [hrun, readIn_lineEnd (.inr rfl), List.nil_append]

/-- What is left of a block behind the space of a last line, where parsing goes on. -/
theorem text_of_opened (h : readIn .text v record coded n records rest tail = .opened p) :
    rest = [] ∧ readLine v record coded n records tail = .opened p ∨
      ∃ body lost, rest = body ++ (crlf ++ lost) ∧
        (body = [] ∧ coded = false ∧
            readNext (records ++ [(record, n + 2)]) v tail = .opened p ∨
          body ≠ [] ∧ Fits record 2 ∧
            readNext (records ++ [(push record (cString body), n + body.length + 2)]) (cString body)
              tail = .opened p) := by
  by_cases hrest : rest = []
  · subst hrest
    exact .inl ⟨rfl, h⟩
  · cases hbody : upToLastLineEnd rest with
    | none =>
      rw [readIn_noLineEnd hrest hbody] at h
      cases h
    | some body =>
      obtain ⟨lost, rfl, hlost⟩ := upToLastLineEnd_eq_some hbody
      refine .inr ⟨body, lost, rfl, ?_⟩
      by_cases hne : body = []
      · subst hne
        rw [List.nil_append] at h
        cases coded with
        | true =>
          rw [readIn_emptyLast hlost] at h
          cases h
        | false =>
          rw [readIn_lastEnd hlost] at h
          split_ifs at h
          exact .inl ⟨rfl, rfl, h⟩
      · rw [readIn_lastText hne hlost] at h
        split_ifs at h with hfits
        exact .inr ⟨hne, hfits, h⟩

/-- Behind a code that stands in place of a text, there is less of the text, or more than it. -/
theorem behindRepeated_of_opened (htail : ∀ b ∈ tail, b ≠ []) (ht : IsPlain t)
    (hflatten : rest ++ tail.flatten = t ++ (crlf ++ more))
    (h : readIn .textBegin v record true n records rest tail = .opened p)
    (hrecords : records ++ [entry] <+: p.records) :
    ∃ value, record.text ++ [value] <+: entry.1.text ∧
      (value.length ≤ t.length ∨ carriageReturn ∈ value) := by
  rcases rest with _ | ⟨b, rest⟩
  · have hline : readLine v record true n records tail = .opened p := h
    exact absurd hline (readLine_coded htail (ne_nil_of_lineEnd hflatten))
  have hne : b :: rest ≠ [] := List.cons_ne_nil b rest
  by_cases hcrlf : crlf <+: b :: rest
  · have hrule : rule ⟨.textBegin, v, some record, true, n, records⟩ (b :: rest) =
        .give .reply .textBegin v 2 := by simp only [rule, if_pos hcrlf]
    rw [readIn_unexpected hne hrule] at h
    cases h
  by_cases hkind : b = minus ∨ b = space
  · -- the text goes on behind what follows the code
    obtain ⟨t, rfl, hbehind⟩ : ∃ t', t = b :: t' ∧ rest ++ tail.flatten = t' ++ (crlf ++ more) := by
      rcases t with _ | ⟨d, t⟩
      · obtain ⟨rfl, -⟩ := List.cons.inj hflatten
        rcases hkind with hkind | hkind <;> exact absurd hkind (by decide)
      · obtain ⟨rfl, hrest⟩ := List.cons.inj hflatten
        exact ⟨t, rfl, hrest⟩
    have hplain : IsPlain t := fun d hd => ht d (List.mem_cons_of_mem b hd)
    have hshort : t.length ≤ (b :: t).length := Nat.le_succ _
    rcases hkind with rfl | rfl
    · rw [readIn_kind (.inl ⟨rfl, rfl⟩)] at h
      rcases cut_cases hbehind with ⟨rest', rfl, -⟩ | ⟨rfl, hleft⟩ | ⟨t', rfl, hleft⟩
      · rw [readIn_wholeText hplain] at h
        split_ifs at h
        exact ⟨t, texts_of_opened h hrecords, .inl hshort⟩
      · obtain ⟨v', n', hread⟩ : ∃ v' n', readIn .multilineText [] record true (n + 1) records
            (t ++ [carriageReturn]) tail = readLine v' record true n' records tail :=
          readIn_cutEnd hplain
        rw [hread] at h
        refine absurd h (readLine_coded htail ?_)
        rintro rfl
        cases hleft
      · have hrest : IsPlain rest := fun d hd => hplain d (List.mem_append_left t' hd)
        obtain ⟨v', n', hread⟩ : ∃ v' n', readIn .multilineText [] record true (n + 1) records
            rest tail = readLine v' record true n' records tail := readIn_cutText hrest
        rw [hread] at h
        exact absurd h (readLine_coded htail (ne_nil_of_lineEnd hleft))
    · rw [readIn_kind (.inr ⟨rfl, rfl⟩)] at h
      rcases text_of_opened h with ⟨rfl, hline⟩ | ⟨body, lost, rfl, ⟨-, hcoded, -⟩ | ⟨-, -, hnext⟩⟩
      · exact absurd hline (readLine_coded htail (ne_nil_of_lineEnd hbehind))
      · cases hcoded
      · have hentry := snoc_prefix_unique hrecords (readNext_records hnext)
        refine ⟨cString body, ?_, ?_⟩
        · rw [hentry]
          exact List.prefix_refl _
        · rw [List.append_assoc] at hbehind
          rcases List.append_eq_append_iff.mp hbehind with ⟨t', rfl, -⟩ | ⟨body', rfl, hbody'⟩
          · refine .inl (((List.takeWhile_prefix _).length_le).trans ?_)
            rw [List.length_cons, List.length_append]
            omega
          · rcases body' with _ | ⟨d, body'⟩
            · rw [List.append_nil]
              exact .inl (((List.takeWhile_prefix _).length_le).trans hshort)
            · -- the line end belongs to the text
              obtain ⟨rfl, -⟩ := List.cons.inj hbody'
              refine .inr ?_
              have hzero : ∀ b ∈ t, (b != 0) = true := fun b hb => bne_iff_ne.mpr (hplain b hb).2
              rw [cString, List.takeWhile_append_of_pos hzero]
              exact List.mem_append_right t (by simp [carriageReturn])
  · rw [not_or] at hkind
    have hhead {d : UInt8} (hd : b ≠ d) : ¬ (b :: rest).head? = some d :=
      fun h => hd (Option.some.inj h)
    have hrule : rule ⟨.textBegin, v, some record, true, n, records⟩ (b :: rest) = .fails := by
      simp only [rule, if_neg hcrlf, if_neg (hhead hkind.1), if_neg (hhead hkind.2)]
    rw [readIn_fails hne hrule] at h
    cases h

theorem repeated_of_opened (hblocks : ∀ b ∈ blocks, b ≠ []) (ht : IsPlain t)
    (hflatten : blocks.flatten = t ++ (crlf ++ more))
    (h : readLine v record coded n records blocks = .opened p)
    (hrecords : records ++ [entry] <+: p.records) :
    ∃ value, record.text ++ [value] <+: entry.1.text ∧
      (value.length < t.length ∨ carriageReturn ∈ value) := by
  have hne := ne_nil_of_lineEnd hflatten
  cases coded with
  | true => exact absurd h (readLine_coded hblocks hne)
  | false =>
    obtain ⟨word, tail, rfl⟩ := List.exists_cons_of_ne_nil hne
    have htail : ∀ b ∈ tail, b ≠ [] := fun b hb => hblocks b (List.mem_cons_of_mem _ hb)
    cases hcode : codeOf word with
    | none =>
      rw [readLine_fails (hblocks word List.mem_cons_self) hcode] at h
      cases h
    | some code =>
      obtain ⟨digits, rest, rfl, hlength, hall, -⟩ := FTP.codeOf_some hcode
      rw [List.flatten_cons, List.append_assoc] at hflatten
      obtain ⟨t, rfl⟩ := FTP.prefix_of_flatten (FTP.return_notMem_digits hall) hflatten
      rw [List.append_assoc] at hflatten
      have ht : IsPlain t := fun b hb => ht b (List.mem_append_right digits hb)
      rw [readLine_code ⟨hlength, hall⟩] at h
      split_ifs at h
      obtain ⟨value, htexts, hvalue⟩ := behindRepeated_of_opened htail ht
        (List.append_cancel_left hflatten) h hrecords
      refine ⟨value, htexts, hvalue.imp_left fun hle => ?_⟩
      rw [List.length_append, hlength]
      omega

/-- A text that has been cut is not one of the record. -/
theorem not_cut (ht : IsPlain (r ++ t)) (hblocks : ∀ b ∈ blocks, b ≠ [])
    (hflatten : blocks.flatten = t ++ (crlf ++ more))
    (h : readLine v record coded n records blocks = .opened p)
    (hrecords : records ++ [entry] <+: p.records)
    (htexts : record.text ++ [r ++ t] <+: entry.1.text) : False := by
  obtain ⟨value, hvalue, hother⟩ := repeated_of_opened hblocks
    (fun b hb => ht b (List.mem_append_right r hb)) hflatten h hrecords
  obtain rfl := snoc_prefix_unique htexts hvalue
  rcases hother with hlt | hin
  · rw [List.length_append] at hlt
    omega
  · exact return_notMem_plain (fun b hb => (ht b hb).1) hin

end Cut

section Opened

variable {entry : Reply × ℕ} {last : Bytes} {lines : List Bytes} {blocks' : List Bytes}

/-- A line that is continued, where parsing goes on and its text becomes one of the record. -/
theorem line_of_opened (htail : ∀ b ∈ tail, b ≠ []) (ht : IsPlain t)
    (hflatten : rest ++ tail.flatten = minus :: (t ++ (crlf ++ more)))
    (h : readIn .textBegin v record coded n records rest tail = .opened p)
    (hrecords : records ++ [entry] <+: p.records) (htexts : record.text ++ [t] <+: entry.1.text) :
    ∃ rest', rest = minus :: (t ++ (crlf ++ rest')) ∧ more = rest' ++ tail.flatten ∧
      Fits record (1 + coded.toNat) ∧
      readLine t (push record t) false (n + 1 + t.length + 2) records (rest' :: tail) =
        .opened p := by
  rcases rest with _ | ⟨b, rest⟩
  · have hfails : readLine v record coded n records tail = .closed (.fault .assertion) :=
      readLine_other htail (by decide) hflatten
    rw [readIn_nil, hfails] at h
    cases h
  obtain ⟨rfl, hbehind⟩ := List.cons.inj hflatten
  rw [readIn_kind (.inl ⟨rfl, rfl⟩)] at h
  rcases cut_cases hbehind with ⟨rest', rfl, hmore⟩ | ⟨rfl, hleft⟩ | ⟨t', rfl, hleft⟩
  · rw [readIn_wholeText ht] at h
    split_ifs at h with hfits
    exact ⟨rest', rfl, hmore, hfits, h⟩
  · obtain ⟨v', n', hread⟩ : ∃ v' n', readIn .multilineText [] record coded (n + 1) records
        (t ++ [carriageReturn]) tail = readLine v' record coded n' records tail := readIn_cutEnd ht
    have hfails : readLine v' record coded n' records tail = .closed (.fault .assertion) :=
      readLine_other htail (by decide) hleft
    rw [hread, hfails] at h
    cases h
  · have hrest : IsPlain rest := fun d hd => ht d (List.mem_append_left t' hd)
    obtain ⟨v', n', hread⟩ : ∃ v' n', readIn .multilineText [] record coded (n + 1) records
        rest tail = readLine v' record coded n' records tail := readIn_cutText hrest
    rw [hread] at h
    exact (not_cut ht htail hleft h hrecords htexts).elim

/-- A last line, where parsing goes on and its text becomes the last one of the record. -/
theorem last_of_opened (htail : ∀ b ∈ tail, b ≠ []) (hlast : IsPlain last)
    (hflatten : rest ++ tail.flatten = space :: (last ++ (crlf ++ more)))
    (h : readIn .textBegin v record coded n records rest tail = .opened p)
    (hrecords : records ++ [entry] <+: p.records)
    (hentry : entry = (push record last, n + 1 + last.length + 2)) :
    ∃ lost v', rest = space :: (last ++ (crlf ++ lost)) ∧ last ≠ [] ∧ more = lost ++ tail.flatten ∧
      Fits record 2 ∧ readNext (records ++ [entry]) v' tail = .opened p := by
  have htexts : record.text ++ [last] <+: entry.1.text := by
    rw [hentry]
    exact List.prefix_refl _
  rcases rest with _ | ⟨b, rest⟩
  · have hfails : readLine v record coded n records tail = .closed (.fault .assertion) :=
      readLine_other htail (by decide) hflatten
    rw [readIn_nil, hfails] at h
    cases h
  obtain ⟨rfl, hbehind⟩ : b = space ∧ rest ++ tail.flatten = last ++ (crlf ++ more) :=
    List.cons.inj hflatten
  rw [readIn_kind (.inr ⟨rfl, rfl⟩)] at h
  rcases text_of_opened h with ⟨rfl, hline⟩ | ⟨body, lost, rfl, ⟨rfl, -, hnext⟩ | ⟨hne, hfits, hnext⟩⟩
  · exact (not_cut (r := []) hlast htail hbehind hline hrecords htexts).elim
  · -- the record has no text for the line
    have hsame := snoc_prefix_unique hrecords (readNext_records hnext)
    rw [hentry] at hsame
    have htext : record.text ++ [last] = record.text := congrArg (fun e => e.1.text) hsame
    exact absurd (List.append_right_eq_self.mp htext) (List.cons_ne_nil last [])
  · obtain rfl := snoc_prefix_unique hrecords (readNext_records hnext)
    have hlength : body.length = last.length := by
      have hcount := congrArg Prod.snd hentry
      dsimp only at hcount
      omega
    rw [List.append_assoc] at hbehind
    obtain ⟨rfl, hmore⟩ := List.append_inj hbehind hlength
    rw [List.append_assoc] at hmore
    exact ⟨lost, _, rfl, hne, (List.append_cancel_left hmore).symm, hfits, hnext⟩

theorem code_of_opened (hdigits : digits.length = 3 ∧ digits.all isDigit = true)
    (hblocks : ∀ b ∈ blocks, b ≠ []) (hflatten : blocks.flatten = digits ++ more)
    (h : readLine v record false n records blocks = .opened p) :
    ∃ rest tail, blocks = (digits ++ rest) :: tail ∧ rest ++ tail.flatten = more ∧
      Fits record 1 ∧ readIn .textBegin v record true (n + 3) records rest tail = .opened p := by
  rcases blocks with _ | ⟨word, tail⟩
  · exact absurd (List.append_eq_nil_iff.mp hflatten.symm).1 (digits_ne_nil hdigits)
  cases hcode : codeOf word with
  | none =>
    rw [readLine_fails (hblocks word List.mem_cons_self) hcode] at h
    cases h
  | some code =>
    obtain ⟨digits', rest, rfl, hlength, -, -⟩ := FTP.codeOf_some hcode
    rw [List.flatten_cons, List.append_assoc] at hflatten
    obtain ⟨rfl, hmore⟩ := List.append_inj hflatten (hlength.trans hdigits.1.symm)
    rw [readLine_code hdigits] at h
    split_ifs at h with hfits
    exact ⟨rest, tail, rfl, hmore, hfits, h⟩

theorem linesOctets_cons (line : Bytes) (lines : List Bytes) :
    linesOctets digits last (line :: lines) =
      lineOctets digits minus line ++ linesOctets digits last lines := by
  rw [linesOctets, linesOctets, List.flatMap_cons, List.append_assoc]

theorem lineOctets_length (hdigits : digits.length = 3) (kind : UInt8) (t : Bytes) :
    (lineOctets digits kind t).length = t.length + 6 := by
  have hcrlf : crlf.length = 2 := rfl
  simp only [lineOctets, List.length_append, List.length_cons, hdigits, hcrlf]
  omega

theorem linesOctets_starts (digits last : Bytes) (lines : List Bytes) :
    ∃ more, linesOctets digits last lines = digits ++ more := by
  cases lines with
  | nil => exact ⟨space :: (last ++ crlf), rfl⟩
  | cons line lines =>
    refine ⟨minus :: (line ++ crlf) ++ linesOctets digits last lines, ?_⟩
    rw [linesOctets_cons, lineOctets, List.append_assoc]

/-- The lines of a reply behind a code, where parsing goes on and the reply becomes its record. -/
theorem lines_of_opened {k : ℕ} (hdigits : digits.length = 3 ∧ digits.all isDigit = true)
    (hlines : ∀ line ∈ lines, IsPlain line) (hlast : IsPlain last) (htail : ∀ b ∈ tail, b ≠ [])
    (hflatten : digits ++ (rest ++ tail.flatten) = linesOctets digits last lines ++ more)
    (h : readIn .textBegin v record coded n records rest tail = .opened p)
    (hrecords : records ++ [entry] <+: p.records)
    (hentry : entry = (⟨record.code, record.text ++ (lines ++ [last])⟩, k))
    (hk : k + 3 = n + (linesOctets digits last lines).length) :
    ∃ lost v' blocks', readNext (records ++ [entry]) v' blocks' = .opened p ∧
      more = lost ++ blocks'.flatten ∧ (∀ b ∈ blocks', b ≠ []) ∧ Fits record (lines.length + 2) ∧
      (lost = [] → Uncut digits last lines ((digits ++ rest) :: tail) blocks') := by
  induction lines generalizing v record coded n rest tail with
  | nil =>
    have hsplit : linesOctets digits last [] ++ more =
        digits ++ (space :: (last ++ (crlf ++ more))) := by
      simp [linesOctets, lineOctets]
    have hlength : (linesOctets digits last []).length = last.length + 6 :=
      lineOctets_length hdigits.1 space last
    have hentry' : entry = (push record last, n + 1 + last.length + 2) := by
      rw [hentry, push, List.nil_append]
      exact congrArg (Prod.mk _) (by omega)
    rw [hsplit] at hflatten
    obtain ⟨lost, v', rfl, hne, hmore, hfits, hnext⟩ := last_of_opened htail hlast
      (List.append_cancel_left hflatten) h hrecords hentry'
    refine ⟨lost, v', tail, hnext, hmore, htail, hfits, ?_⟩
    rintro rfl
    exact .last hne rfl
  | cons line lines ih =>
    have hline := hlines line List.mem_cons_self
    have hsplit : linesOctets digits last (line :: lines) ++ more =
        digits ++ (minus :: (line ++ (crlf ++ (linesOctets digits last lines ++ more)))) := by
      rw [linesOctets_cons]
      simp [lineOctets]
    have hlength : (linesOctets digits last (line :: lines)).length =
        line.length + 6 + (linesOctets digits last lines).length := by
      rw [linesOctets_cons, List.length_append, lineOctets_length hdigits.1]
    rw [hsplit] at hflatten
    have htexts : record.text ++ [line] <+: entry.1.text := by
      rw [hentry]
      exact ⟨lines ++ [last], by simp⟩
    obtain ⟨rest', rfl, hmore, hroom, hread⟩ := line_of_opened htail hline
      (List.append_cancel_left hflatten) h hrecords htexts
    have hblocks : ∀ b ∈ remaining rest' tail, b ≠ [] := by
      refine Blocks.nonempty_remaining ?_
      exact htail
    obtain ⟨next, hnext⟩ := linesOctets_starts digits last lines
    have hmore' : linesOctets digits last lines ++ more = digits ++ (next ++ more) := by
      rw [hnext, List.append_assoc]
    rw [← readLine_remaining] at hread
    have hremaining : (remaining rest' tail).flatten = digits ++ (next ++ more) := by
      rw [Blocks.flatten_remaining, ← hmore, hmore']
    obtain ⟨rest₂, tail₂, hcons, hrest₂, hfits, hcode⟩ :=
      code_of_opened hdigits hblocks hremaining hread
    rw [hcons] at hblocks
    obtain ⟨lost, v', blocks', hnext, hlost, hblocks', hroom', huncut⟩ :=
      ih (fun line hin => hlines line (List.mem_cons_of_mem _ hin))
        (fun b hb => hblocks b (List.mem_cons_of_mem _ hb)) (by rw [hrest₂, hmore']) hcode
        (by rw [hentry, push]; simp) (by omega)
    refine ⟨lost, v', blocks', hnext, hlost, hblocks', ?_, fun hnil => ?_⟩
    · simp only [Fits, push, List.length_append, List.length_cons, List.length_nil] at hroom' ⊢
      omega
    · refine .line ⟨rest', tail, ?_, rfl⟩ (hcons.symm ▸ huncut hnil)
      simp [lineOctets]

end Opened

section Whole

variable {last : Bytes} {lines : List Bytes} {blocks' : List Bytes} {r : Written}

theorem Fits.mono {m k : ℕ} (h : Fits record k) (hmk : m ≤ k) : Fits record m :=
  le_trans (Nat.add_le_add_left (Nat.add_le_add_left hmk _) 3) h

theorem fits_push {k : ℕ} : Fits (push record t) k ↔ Fits record (k + 1) := by
  simp only [Fits, push, List.length_append, List.length_singleton]
  rw [Nat.add_comm k 1, Nat.add_assoc record.text.length]

/-- A last text whose line end ends the block. -/
theorem readIn_last (ht : IsPlain t) (hne : t ≠ []) (hfits : Fits record 2) :
    readIn .text v record coded n records (t ++ crlf) tail =
      readNext (records ++ [(push record t, n + t.length + 2)]) t tail := by
  have hnil : ¬ crlf <:+: ([] : Bytes) := by decide
  rw [← List.append_nil crlf, readIn_lastText hne hnil, if_pos hfits, FTP.cString_plain ht]

/-- A line that has not been cut starts with its code in one block. -/
theorem Uncut.starts (h : Uncut digits last lines blocks blocks') :
    ∃ rest tail, blocks = (digits ++ rest) :: tail := by
  cases h with
  | last hne hwhole => exact ⟨space :: (last ++ crlf), blocks', hwhole⟩
  | @line line lines blocks blocks₁ blocks' hpiece huncut =>
    obtain ⟨rest, tail, rfl, -⟩ := hpiece
    exact ⟨minus :: (line ++ crlf) ++ rest, tail, by simp [lineOctets]⟩

theorem readIn_uncut (hdigits : digits.length = 3 ∧ digits.all isDigit = true)
    (hlines : ∀ line ∈ lines, IsPlain line) (hlast : IsPlain last)
    (hfits : Fits record (lines.length + 2)) (h : Uncut digits last lines blocks blocks')
    (hblocks : blocks = (digits ++ rest) :: tail) (hn : 3 ≤ n) :
    readIn .textBegin v record coded n records rest tail =
      readNext (records ++ [(⟨record.code, record.text ++ (lines ++ [last])⟩,
        n - 3 + (linesOctets digits last lines).length)]) last blocks' := by
  induction h generalizing v record coded n rest tail with
  | @last blocks blocks' hne hwhole =>
    rw [hblocks] at hwhole
    obtain ⟨hrest, rfl⟩ := List.cons.inj hwhole
    obtain rfl : rest = space :: (last ++ crlf) := List.append_cancel_left hrest
    have hlength : (linesOctets digits last []).length = last.length + 6 :=
      lineOctets_length hdigits.1 space last
    have hcount : n + 1 + last.length + 2 = n - 3 + (last.length + 6) := by omega
    rw [readIn_kind (.inr ⟨rfl, rfl⟩), readIn_last hlast hne hfits, hlength, hcount]
    rfl
  | @line line lines blocks blocks₁ blocks' hpiece huncut ih =>
    obtain ⟨rest', tail', hcons, rfl⟩ := hpiece
    rw [hblocks] at hcons
    obtain ⟨hrest, rfl⟩ := List.cons.inj hcons
    obtain rfl : rest = minus :: (line ++ (crlf ++ rest')) :=
      List.append_cancel_left (hrest.trans (by simp [lineOctets]))
    have hplain := hlines line List.mem_cons_self
    have hpush : Fits (push record line) (lines.length + 2) := fits_push.2 hfits
    have hroom : Fits record (1 + coded.toNat) :=
      hfits.mono (by have := Bool.toNat_le coded; simp only [List.length_cons]; omega)
    obtain ⟨rest₂, tail₂, hstarts⟩ := huncut.starts
    have hread : readIn .textBegin line (push record line) true (n + 1 + line.length + 2 + 3) records
        rest₂ tail₂ = readNext (records ++ [(⟨record.code, record.text ++ [line] ++ (lines ++ [last])⟩,
          n + 1 + line.length + 2 + 3 - 3 + (linesOctets digits last lines).length)]) last blocks' :=
      ih (fun line hline => hlines line (List.mem_cons_of_mem _ hline)) hpush hstarts (by omega)
    have hlength : (linesOctets digits last (line :: lines)).length =
        line.length + 6 + (linesOctets digits last lines).length := by
      rw [linesOctets_cons, List.length_append, lineOctets_length hdigits.1]
    have hcount : n + 1 + line.length + 2 + 3 - 3 + (linesOctets digits last lines).length =
        n - 3 + (line.length + 6 + (linesOctets digits last lines).length) := by omega
    have htexts : record.text ++ [line] ++ (lines ++ [last]) =
        record.text ++ (line :: lines ++ [last]) := by simp
    rw [readIn_kind (.inl ⟨rfl, rfl⟩), readIn_wholeText hplain, if_pos hroom, ← readLine_remaining,
      hstarts, readLine_code hdigits, if_pos (hpush.mono (by omega)), hread, hlength, hcount, htexts]

theorem readNext_readable (hr : r.WellFormed) (h : r.Readable blocks blocks') :
    readNext records v blocks =
      readNext (records ++ [(r.record, r.octets.length)]) r.last blocks' := by
  obtain ⟨hdigits, hlines, hlast⟩ := hr
  obtain ⟨hroom, huncut⟩ := h
  obtain ⟨rest, tail, hstarts⟩ := huncut.starts
  have hfits : Fits ⟨decimalValue r.digits, []⟩ (r.lines.length + 2) := by
    simp only [Fits, List.length_nil]
    omega
  rw [hstarts, readNext_code hdigits, readIn_uncut hdigits hlines hlast hfits huncut hstarts le_rfl]
  simp [Written.record, Written.octets]

end Whole

section Replies

variable {blocks' : List Bytes} {r : Written} {replies : List Written}

def octetsOf (replies : List Written) : Bytes := (replies.map Written.octets).flatten

def delivered (replies : List Written) : List (Reply × ℕ) :=
  replies.map fun r => (r.record, r.octets.length)

theorem sum_delivered (replies : List Written) :
    ((delivered replies).map Prod.snd).sum = (octetsOf replies).length := by
  rw [delivered, octetsOf, List.length_flatten, List.map_map, List.map_map]
  rfl

theorem readNext_counted (h : readNext records v blocks = .opened p) :
    p.counted ≤ (records.map Prod.snd).sum + blocks.flatten.length := by
  have hwithin := Blocks.read_within step_within ⟨.initial, v, none, false, 0, records⟩ blocks
  rw [readNext] at h
  rw [h] at hwithin
  exact hwithin

theorem reply_of_opened (hr : r.WellFormed) (hblocks : ∀ b ∈ blocks, b ≠ [])
    (hflatten : blocks.flatten = r.octets ++ more) (h : readNext records v blocks = .opened p)
    (hrecords : records ++ [(r.record, r.octets.length)] <+: p.records) :
    ∃ lost v' blocks',
      readNext (records ++ [(r.record, r.octets.length)]) v' blocks' = .opened p ∧
        more = lost ++ blocks'.flatten ∧ (∀ b ∈ blocks', b ≠ []) ∧
        (lost = [] → r.Readable blocks blocks') := by
  obtain ⟨hdigits, hlines, hlast⟩ := hr
  obtain ⟨more', hmore'⟩ := linesOctets_starts r.digits r.last r.lines
  have hsplit : blocks.flatten = r.digits ++ (more' ++ more) := by
    rw [hflatten, Written.octets, hmore', List.append_assoc]
  rcases blocks with _ | ⟨word, tail⟩
  · exact absurd (List.append_eq_nil_iff.mp hsplit.symm).1 (digits_ne_nil hdigits)
  cases hcode : codeOf word with
  | none =>
    rw [readNext_fails (hblocks word List.mem_cons_self) hcode] at h
    cases h
  | some code =>
    obtain ⟨digits, rest, rfl, hlength, -, -⟩ := FTP.codeOf_some hcode
    rw [List.flatten_cons, List.append_assoc] at hflatten hsplit
    obtain ⟨rfl, -⟩ := List.append_inj hsplit (hlength.trans hdigits.1.symm)
    rw [readNext_code hdigits] at h
    have htail : ∀ b ∈ tail, b ≠ [] := fun b hb => hblocks b (List.mem_cons_of_mem _ hb)
    obtain ⟨lost, v', blocks', hnext, hmore, hblocks', hfits, huncut⟩ :=
      lines_of_opened hdigits hlines hlast htail hflatten h hrecords rfl (Nat.add_comm _ 3)
    refine ⟨lost, v', blocks', hnext, hmore, hblocks', fun hlost => ⟨?_, huncut hlost⟩⟩
    simp only [Fits, List.length_nil] at hfits
    omega

/-- Replies that have all become their records have been readable: nothing has been lost, since the
octets of all of them have been counted. -/
theorem allReadable_of_delivered (hreplies : ∀ r ∈ replies, r.WellFormed)
    (hblocks : ∀ b ∈ blocks, b ≠ []) (hflatten : blocks.flatten = octetsOf replies)
    (h : readNext records v blocks = .opened p) (hrecords : p.records = records ++ delivered replies) :
    AllReadable replies blocks := by
  induction replies generalizing records v blocks with
  | nil =>
    cases blocks with
    | nil => exact .nil
    | cons block blocks =>
      have hnil := (List.append_eq_nil_iff.mp hflatten).1
      exact absurd hnil (hblocks block List.mem_cons_self)
  | cons r replies ih =>
    have hfirst : records ++ [(r.record, r.octets.length)] <+: p.records := by
      rw [hrecords]
      exact ⟨delivered replies, by simp [delivered]⟩
    obtain ⟨lost, v', blocks', hread, hmore, hblocks', hreadable⟩ :=
      reply_of_opened (hreplies r List.mem_cons_self) hblocks hflatten h hfirst
    have hrecords' : p.records =
        (records ++ [(r.record, r.octets.length)]) ++ delivered replies := by
      rw [hrecords, List.append_assoc]
      rfl
    have hlost : lost = [] := by
      have hcounted := readNext_counted hread
      have hlength := congrArg List.length hmore
      rw [Parse.counted, hrecords', List.map_append, List.sum_append, sum_delivered, octetsOf]
        at hcounted
      rw [List.length_append] at hlength
      refine List.eq_nil_of_length_eq_zero ?_
      have hlength' : ((replies.map Written.octets).flatten).length =
          lost.length + blocks'.flatten.length := hlength
      omega
    subst hlost
    refine .cons (hreadable rfl) ?_
    exact ih (fun r hr => hreplies r (List.mem_cons_of_mem _ hr)) hblocks' hmore.symm hread hrecords'

theorem readNext_allReadable (hreplies : ∀ r ∈ replies, r.WellFormed)
    (h : AllReadable replies blocks) : ∃ v', readNext records v blocks =
      .opened ⟨.initial, v', none, false, 0, records ++ delivered replies⟩ := by
  induction h generalizing records v with
  | nil => exact ⟨v, by rw [delivered, List.map_nil, List.append_nil]; rfl⟩
  | @cons r replies blocks blocks' hreadable hrest ih =>
    obtain ⟨v', hread⟩ := @ih r.last (records ++ [(r.record, r.octets.length)])
      (fun r hr => hreplies r (List.mem_cons_of_mem _ hr))
    refine ⟨v', ?_⟩
    rw [readNext_readable (hreplies r List.mem_cons_self) hreadable, hread, List.append_assoc]
    rfl

/-- Replies in whatever blocks are delivered exactly where each of them is readable. -/
theorem delivers_iff_readable (hreplies : ∀ r ∈ replies, r.WellFormed)
    (hblocks : ∀ b ∈ blocks, b ≠ []) (hflatten : blocks.flatten = octetsOf replies) :
    Delivers replies blocks ↔ AllReadable replies blocks := by
  constructor
  · rintro ⟨p, hreceive, -, -, hrecords⟩
    exact allReadable_of_delivered hreplies hblocks hflatten hreceive hrecords
  · intro h
    obtain ⟨v', hread⟩ := @readNext_allReadable [] [] blocks replies hreplies h
    exact ⟨_, hread, rfl, rfl, rfl⟩

instance Written.WellFormed.decidable (r : Written) : Decidable r.WellFormed :=
  decidable_of_iff ((r.digits.length = 3 ∧ r.digits.all isDigit = true) ∧
      (∀ line ∈ r.lines, IsPlain line) ∧ IsPlain r.last)
    ⟨fun ⟨hdigits, hlines, hlast⟩ => ⟨hdigits, hlines, hlast⟩,
      fun h => ⟨h.digits, h.lines, h.last⟩⟩

def greeting : List Written :=
  [⟨text "220", [], text "mx"⟩, ⟨text "250", [text "mx", text "AUTH LOGIN"], text "OK"⟩]

/-- A second reply in the block of the first one is lost. -/
theorem delivers_greeting :
    Delivers greeting [text "220 mx" ++ crlf,
      text "250-mx" ++ crlf ++ (text "250-AUTH LOGIN" ++ crlf), text "250 OK" ++ crlf] ∧
    ¬ Delivers greeting [octetsOf greeting] := by
  have hwellFormed : ∀ r ∈ greeting, r.WellFormed := by decide +kernel
  have hfirst (blocks : List Bytes) :
      Uncut (text "220") (text "mx") [] ((text "220 mx" ++ crlf) :: blocks) blocks :=
    .last (by decide) rfl
  have hsecond : Uncut (text "250") (text "OK") [text "mx", text "AUTH LOGIN"] _ [] :=
    .line ⟨text "250-AUTH LOGIN" ++ crlf, [text "250 OK" ++ crlf], rfl, rfl⟩
      (.line ⟨[], [text "250 OK" ++ crlf], rfl, rfl⟩ (.last (by decide) rfl))
  constructor
  · exact (delivers_iff_readable hwellFormed (by decide) (by decide)).2
      (.cons ⟨by decide, hfirst _⟩ (.cons ⟨by decide, hsecond⟩ .nil))
  · intro hdelivers
    have hreadable : AllReadable greeting [octetsOf greeting] :=
      (delivers_iff_readable hwellFormed (by decide) (List.append_nil _)).1 hdelivers
    rcases hreadable with _ | ⟨⟨-, huncut⟩, -⟩
    cases huncut with
    | last _ hwhole => exact absurd (List.cons.inj hwhole).1 (by decide)

end Replies

end ACENetwork.SMTP.Parser
