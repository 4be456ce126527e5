import ACENetwork.IRC.Streamer
import ACENetwork.Library.Joined

/-!
# Lists of parameters

Ranges of the parameters of a record are lists, whose items have a comma between them. The
streamer picks the separator behind a parameter by the range that the parameter itself is in.
-/
namespace ACENetwork.IRC.Streamer
open BitTorrent (Fault)
open Library
open IRC.Parser (blank colon maximumFrameSize)

def comma : UInt8 := 0x2C

/-- `list_items_ranges_t`: the first and the last index of each list. -/
abbrev Ranges := List (ℕ × ℕ)

/-- The range iterator is moved on behind the last item of a list. -/
def nextRange (forward : ℕ) : Ranges → Ranges
  | [] => []
  | range :: ranges => if range.2 < forward then ranges else range :: ranges

def parameterSeparator (forward : ℕ) : Ranges → UInt8
  | [] => blank
  | range :: _ => if range.1 ≤ forward ∧ forward ≤ range.2 then comma else blank

def streamItem (m : Message) (separator : UInt8) (parameter : Bytes) (parameters : List Bytes) :
    Option Message := do
  let m ← m.copyIf (parameters = [] ∧ parameter.contains blank) [colon]
  let m ← m.copy parameter
  m.copyIf (parameters ≠ []) [separator]

def streamLists (m : Message) (ranges : Ranges) (forward : ℕ) :
    List Bytes → Except Fault (Option Message)
  | [] => .ok (some m)
  | parameter :: parameters =>
    let ranges := nextRange forward ranges
    let separator := parameterSeparator forward ranges
    -- a last parameter with a blank cannot be an item of a list
    if (parameters = [] ∧ parameter.contains blank) ∧ separator ≠ blank then .error .assertion
    else
      match streamItem m separator parameter parameters with
      | none => .ok none
      | some m => streamLists m ranges (forward + 1) parameters

def handleListMessage (m : Message) (r : Record) (ranges : Ranges) :
    Except Fault (Option Message) :=
  if m.content ≠ [] ∨ m.space < maximumFrameSize then .error .assertion
  else
    let front := do
      let m ← streamPrefix m r.sender
      let m ← streamCommand m r.command
      m.copyIf (r.parameters ≠ []) [blank]
    match front with
    | none => .ok none
    | some m =>
      match streamLists m ranges 0 r.parameters with
      | .error fault => .error fault
      | .ok none => .ok none
      | .ok (some m) => .ok (m.copy crlf)

section Plain

variable (m : Message)

def itemText (separator : UInt8) (parameter : Bytes) (parameters : List Bytes) : Bytes :=
  (if parameters = [] ∧ parameter.contains blank then [colon] else []) ++
    (parameter ++ if parameters ≠ [] then [separator] else [])

theorem streamItem_eq (separator : UInt8) (parameter : Bytes) (parameters : List Bytes) :
    streamItem m separator parameter parameters =
      m.copy (itemText separator parameter parameters) := by
  simp only [streamItem, copyIf_eq, copy_bind]
  rfl

theorem match_copy (text rest : Bytes) :
    (match m.copy text with
      | none => .ok none
      | some n => .ok (n.copy rest) : Except Fault (Option Message)) =
      .ok (m.copy (text ++ rest)) := by
  rw [← copy_bind]
  cases m.copy text with
  | none => rfl
  | some n => rfl

end Plain

section Separators

structure Ordered (ranges : Ranges) : Prop where
  nonempty : ∀ range ∈ ranges, range.1 ≤ range.2
  disjoint : ranges.Pairwise fun a b => a.2 < b.1

def Listed (ranges : Ranges) (index : ℕ) : Prop :=
  ∃ range ∈ ranges, range.1 ≤ index ∧ index ≤ range.2

def Together (ranges : Ranges) (index : ℕ) : Prop :=
  ∃ range ∈ ranges, range.1 ≤ index ∧ index + 1 ≤ range.2

instance (ranges : Ranges) (index : ℕ) : Decidable (Listed ranges index) :=
  inferInstanceAs (Decidable (∃ range ∈ ranges, range.1 ≤ index ∧ index ≤ range.2))

instance (ranges : Ranges) (index : ℕ) : Decidable (Together ranges index) :=
  inferInstanceAs (Decidable (∃ range ∈ ranges, range.1 ≤ index ∧ index + 1 ≤ range.2))

def groups (ranges : Ranges) (index : ℕ) : List Bytes → List (List Bytes)
  | [] => []
  | parameter :: parameters =>
    if parameters ≠ [] ∧ Together ranges index then
      (groups ranges (index + 1) parameters).modifyHead (parameter :: ·)
    else [parameter] :: groups ranges (index + 1) parameters

def separated (separator : ℕ → UInt8) (index : ℕ) : List Bytes → Bytes
  | [] => []
  | parameter :: parameters =>
    parameter ++ if parameters ≠ [] then
      separator index :: separated separator (index + 1) parameters else []

variable {ranges : Ranges} {index : ℕ} {parameters : List Bytes}

theorem Ordered.tail {range : ℕ × ℕ} (h : Ordered (range :: ranges)) : Ordered ranges :=
  ⟨fun range hin => h.nonempty range (List.mem_cons_of_mem _ hin),
    (List.pairwise_cons.mp h.disjoint).2⟩

theorem Ordered.apart (h : Ordered ranges) {range range' : ℕ × ℕ} (hin : range ∈ ranges)
    (hin' : range' ∈ ranges) (hne : range ≠ range') : range.2 < range'.1 ∨ range'.2 < range.1 := by
  have hpairs : ranges.Pairwise fun a b => a.2 < b.1 ∨ b.2 < a.1 := h.disjoint.imp Or.inl
  have : Std.Symm fun a b : ℕ × ℕ => a.2 < b.1 ∨ b.2 < a.1 := ⟨fun _ _ => Or.symm⟩
  exact hpairs.forall hin hin' hne

theorem separated_congr {f g : ℕ → UInt8} :
    separated f index parameters = separated g index parameters ↔
      ∀ i, index ≤ i → i + 1 < index + parameters.length → f i = g i := by
  induction parameters generalizing index with
  | nil =>
    refine iff_of_true rfl fun i hle hlt => ?_
    rw [List.length_nil] at hlt
    omega
  | cons parameter parameters ih =>
    rw [separated, separated, List.append_cancel_left_eq]
    by_cases hnil : parameters = []
    · subst hnil
      refine iff_of_true rfl fun i hle hlt => ?_
      rw [List.length_singleton] at hlt
      omega
    · have hpos := List.length_pos_iff.mpr hnil
      rw [if_pos hnil, if_pos hnil, List.cons.injEq, ih, List.length_cons]
      constructor
      · rintro ⟨hindex, hrest⟩ i hle hlt
        rcases hle.eq_or_lt with rfl | hlt'
        · exact hindex
        · exact hrest i hlt' (by omega)
      · intro h
        refine ⟨h index le_rfl (by omega), fun i hle hlt => ?_⟩
        exact h i (by omega) (by omega)

theorem groups_ne_nil (ranges : Ranges) (index : ℕ) (h : parameters ≠ []) : groups ranges index parameters ≠ [] := by
  induction parameters generalizing index with
  | nil => exact absurd rfl h
  | cons parameter parameters ih =>
    rw [groups]
    split_ifs with htogether
    · rw [ne_eq, List.modifyHead_eq_nil_iff]
      exact ih (index + 1) htogether.1
    · exact List.cons_ne_nil _ _

theorem mem_groups {group : List Bytes} {parameter : Bytes}
    (hgroup : group ∈ groups ranges index parameters) (hin : parameter ∈ group) :
    parameter ∈ parameters := by
  induction parameters generalizing index group with
  | nil => exact absurd hgroup List.not_mem_nil
  | cons first parameters ih =>
    rw [groups] at hgroup
    split_ifs at hgroup with htogether
    · obtain ⟨head, rest, hrest⟩ := List.exists_cons_of_ne_nil
        (groups_ne_nil ranges (index + 1) htogether.1)
      rw [hrest, List.modifyHead_cons] at hgroup
      rcases List.mem_cons.mp hgroup with rfl | hgroup
      · rcases List.mem_cons.mp hin with rfl | hin
        · exact List.mem_cons_self
        · exact List.mem_cons_of_mem _ (ih (hrest ▸ List.mem_cons_self) hin)
      · exact List.mem_cons_of_mem _ (ih (hrest ▸ List.mem_cons_of_mem _ hgroup) hin)
    · rcases List.mem_cons.mp hgroup with rfl | hgroup
      · rw [List.mem_singleton.mp hin]
        exact List.mem_cons_self
      · exact List.mem_cons_of_mem _ (ih hgroup hin)

theorem joined_groups :
    joined blank ((groups ranges index parameters).map (joined comma)) =
      separated (fun i => if Together ranges i then comma else blank) index parameters ∧
    ∀ group ∈ groups ranges index parameters, group ≠ [] := by
  induction parameters generalizing index with
  | nil => exact ⟨rfl, fun group hin => absurd hin List.not_mem_nil⟩
  | cons parameter parameters ih =>
    obtain ⟨htext, hgroups⟩ := @ih (index + 1)
    rw [separated, ← htext, groups]
    by_cases hnil : parameters = []
    · subst hnil
      simp [groups, joined]
    · obtain ⟨group, rest, hrest⟩ := List.exists_cons_of_ne_nil
        (groups_ne_nil ranges (index + 1) hnil)
      rw [hrest] at hgroups ⊢
      obtain ⟨hgroup, hothers⟩ := List.forall_mem_cons.mp hgroups
      obtain ⟨first, back, rfl⟩ := List.exists_cons_of_ne_nil hgroup
      by_cases htogether : Together ranges index
      · rw [if_pos ⟨hnil, htogether⟩, if_pos hnil, if_pos htogether]
        constructor
        · simp [joined_cons]
        · rw [List.modifyHead_cons, List.forall_mem_cons]
          exact ⟨List.cons_ne_nil _ _, hothers⟩
      · rw [if_neg fun h => htogether h.2, if_pos hnil, if_neg htogether]
        constructor
        · simp [joined_cons]
        · rw [List.forall_mem_cons]
          exact ⟨List.cons_ne_nil _ _, hgroups⟩

end Separators

section Emitted

variable {ranges : Ranges} {index : ℕ}

/-- The ranges from the one of the range iterator on: only the first may lie behind. -/
structure Current (ranges : Ranges) (index : ℕ) : Prop where
  ordered : Ordered ranges
  ahead : ∀ range ∈ ranges.tail, index ≤ range.2

theorem Current.next (h : Current ranges index) : Current (nextRange index ranges) (index + 1) := by
  cases ranges with
  | nil => exact ⟨h.ordered, fun range hin => absurd hin List.not_mem_nil⟩
  | cons range ranges =>
    rw [nextRange]
    split_ifs with hbehind
    · refine ⟨h.ordered.tail, fun range' hin => ?_⟩
      cases ranges with
      | nil => exact absurd hin List.not_mem_nil
      | cons second ranges =>
        have hsecond := h.ahead second List.mem_cons_self
        have hlater := (List.pairwise_cons.mp h.ordered.tail.disjoint).1 range' hin
        have hrange := h.ordered.nonempty range' (List.mem_cons_of_mem _ (List.mem_cons_of_mem _ hin))
        omega
    · refine ⟨h.ordered, fun range' hin => ?_⟩
      have hlater := (List.pairwise_cons.mp h.ordered.disjoint).1 range' hin
      have hrange := h.ordered.nonempty range' (List.mem_cons_of_mem _ hin)
      omega

theorem listed_nextRange {i : ℕ} (hi : index ≤ i) :
    Listed (nextRange index ranges) i ↔ Listed ranges i := by
  cases ranges with
  | nil => rfl
  | cons range ranges =>
    rw [nextRange]
    split_ifs with hbehind
    · simp only [Listed, List.mem_cons, exists_eq_or_imp]
      refine (or_iff_right fun h => ?_).symm
      omega
    · rfl

theorem parameterSeparator_eq (h : Current ranges index) :
    parameterSeparator index (nextRange index ranges) =
      if Listed ranges index then comma else blank := by
  have hlisted : Listed ranges index ↔ Listed (nextRange index ranges) index :=
    (listed_nextRange le_rfl).symm
  have hnext := h.next.ordered
  have hahead : ∀ range ∈ nextRange index ranges, index ≤ range.2 := by
    cases ranges with
    | nil => exact fun range hin => absurd hin List.not_mem_nil
    | cons range ranges =>
      rw [nextRange]
      split_ifs with hbehind
      · exact h.ahead
      · rw [List.forall_mem_cons]
        exact ⟨not_lt.mp hbehind, h.ahead⟩
  rw [if_congr hlisted rfl rfl]
  generalize nextRange index ranges = ranges at hnext hahead
  cases ranges with
  | nil => rfl
  | cons range ranges =>
    rw [parameterSeparator]
    refine if_congr ?_ rfl rfl
    simp only [Listed, List.mem_cons, exists_eq_or_imp]
    refine (or_iff_left ?_).symm
    rintro ⟨range', hin, hfirst, -⟩
    have hlater := (List.pairwise_cons.mp hnext.disjoint).1 range' hin
    have hrange := hahead range List.mem_cons_self
    omega

theorem streamLists_eq {parameters : List Bytes} (m : Message) (h : Current ranges index)
    (hparameters : ∀ parameter ∈ parameters, blank ∉ parameter) :
    streamLists m ranges index parameters = .ok (m.copy
      (separated (fun i => if Listed ranges i then comma else blank) index parameters)) := by
  induction parameters generalizing m ranges index with
  | nil => rw [streamLists, separated, copy_nil]
  | cons parameter parameters ih =>
    obtain ⟨hparameter, hrest⟩ := List.forall_mem_cons.mp hparameters
    have hplain : ¬ (parameters = [] ∧ parameter.contains blank) := by
      simp [hparameter]
    have htail : separated (fun i => if Listed (nextRange index ranges) i then comma else blank)
        (index + 1) parameters =
          separated (fun i => if Listed ranges i then comma else blank) (index + 1) parameters := by
      refine separated_congr.2 fun i hle _ => ?_
      exact if_congr (listed_nextRange (by omega)) rfl rfl
    have hassert : ¬ ((parameters = [] ∧ parameter.contains blank) ∧
        parameterSeparator index (nextRange index ranges) ≠ blank) := fun h => hplain h.1
    simp only [streamLists, if_neg hassert, streamItem_eq]
    simp only [ih _ h.next hrest, match_copy, parameterSeparator_eq h, htail]
    rw [itemText, if_neg hplain, separated]
    by_cases hnil : parameters = []
    · subst hnil
      rw [separated]
      simp
    · simp [hnil]

/-- The lists are told by their commas exactly if none ends before the last parameter. -/
theorem separators_iff {n : ℕ} (h : Ordered ranges) :
    (∀ i, 0 ≤ i → i + 1 < 0 + n →
      (if Listed ranges i then comma else blank) = if Together ranges i then comma else blank) ↔
      ∀ range ∈ ranges, n ≤ range.2 + 1 := by
  have hne : blank ≠ comma := by decide
  constructor
  · intro hall range hin
    by_contra hlt
    have hlisted : Listed ranges range.2 := ⟨range, hin, h.nonempty range hin, le_rfl⟩
    have hsame := hall range.2 (Nat.zero_le _) (by omega)
    rw [if_pos hlisted] at hsame
    split_ifs at hsame with htogether
    · obtain ⟨range', hin', hfirst, hlast⟩ := htogether
      have hrange : range ≠ range' := by
        rintro rfl
        omega
      rcases h.apart hin hin' hrange with hbefore | hbefore
      · omega
      · have hlast' := h.nonempty range hin
        omega
    · exact hne hsame.symm
  · intro hall i _ hi
    have hiff : Listed ranges i ↔ Together ranges i := by
      constructor
      · rintro ⟨range, hin, hfirst, hlast⟩
        have hend := hall range hin
        exact ⟨range, hin, hfirst, by omega⟩
      · rintro ⟨range, hin, hfirst, hlast⟩
        exact ⟨range, hin, hfirst, by omega⟩
    exact if_congr hiff rfl rfl

theorem copy_content {m m' : Message} {text : Bytes} (h : m.copy text = some m') :
    m'.content = m.content ++ text := by
  rw [Message.copy] at h
  split_ifs at h with hfits
  cases h
  rfl

theorem streamCommand_content {m m' : Message} {command : Command}
    (h : streamCommand m command = some m') : m'.content = m.content ++ commandText command := by
  cases command with
  | numeric code =>
    rw [streamCommand] at h
    split_ifs at h with hspace hlength
    exact copy_content h
  | string name => exact copy_content h
  | invalid => cases h

/-- What is emitted between the command and the end of the line. -/
theorem handleListMessage_content {m m' : Message} {r : Record} (hranges : Ordered ranges)
    (hparameters : ∀ parameter ∈ r.parameters, blank ∉ parameter)
    (h : handleListMessage m r ranges = .ok (some m')) :
    m'.content = prefixText r.sender ++ (commandText r.command ++
      ((if r.parameters ≠ [] then [blank] else []) ++
        separated (fun i => if Listed ranges i then comma else blank) 0 r.parameters ++ crlf)) := by
  unfold handleListMessage at h
  split_ifs at h with hready
  obtain ⟨hempty, -⟩ := not_or.mp hready
  rw [not_not] at hempty
  simp only [streamPrefix_eq, copyIf_eq] at h
  have hcurrent : Current ranges 0 := ⟨hranges, fun range _ => Nat.zero_le _⟩
  cases hsender : m.copy (prefixText r.sender) with
  | none => simp only [hsender, Option.bind_eq_bind, Option.bind_none, reduceCtorEq,
      Except.ok.injEq] at h
  | some m₁ =>
    cases hcommand : streamCommand m₁ r.command with
    | none => simp only [hsender, hcommand, Option.bind_eq_bind, Option.bind_some,
        Option.bind_none, reduceCtorEq, Except.ok.injEq] at h
    | some m₂ =>
      cases hblank : m₂.copy (if r.parameters ≠ [] then [blank] else []) with
      | none => simp only [hsender, hcommand, hblank, Option.bind_eq_bind, Option.bind_some,
          reduceCtorEq, Except.ok.injEq] at h
      | some m₃ =>
        simp only [hsender, hcommand, hblank, Option.bind_eq_bind, Option.bind_some,
          streamLists_eq m₃ hcurrent hparameters] at h
        cases hlists : m₃.copy
            (separated (fun i => if Listed ranges i then comma else blank) 0 r.parameters) with
        | none => simp only [hlists, reduceCtorEq, Except.ok.injEq] at h
        | some m₄ =>
          simp only [hlists, Except.ok.injEq] at h
          rw [copy_content h, copy_content hlists, copy_content hblank,
            streamCommand_content hcommand, copy_content hsender, hempty]
          simp only [List.nil_append, List.append_assoc]

/-- The lists of a record can be read off the text that is emitted exactly if no list ends before
the last parameter. -/
theorem lists_encoded_iff {m m' : Message} {r : Record} {ranges : Ranges} (hranges : Ordered ranges)
    (hparameters : ∀ parameter ∈ r.parameters,
      blank ∉ parameter ∧ comma ∉ parameter ∧ parameter.head? ≠ some colon)
    (hemitted : handleListMessage m r ranges = .ok (some m')) :
    (∃ part, m'.content = prefixText r.sender ++ (commandText r.command ++ (part ++ crlf)) ∧
      part.splitOn blank = [] :: (groups ranges 0 r.parameters).map (joined comma)) ↔
      ∀ range ∈ ranges, r.parameters.length ≤ range.2 + 1 := by
  have hplain : ∀ parameter ∈ r.parameters, blank ∉ parameter := fun parameter hin =>
    (hparameters parameter hin).1
  rw [handleListMessage_content hranges hplain hemitted, ← separators_iff hranges,
    ← separated_congr, ← joined_groups.1]
  simp only [List.append_cancel_left_eq, List.append_cancel_right_eq]
  rw [exists_eq_left']
  have hblank : ∀ part ∈ [] :: (groups ranges 0 r.parameters).map (joined comma), blank ∉ part := by
    rw [List.forall_mem_cons, List.forall_mem_map]
    refine ⟨List.not_mem_nil, fun group hgroup => ?_⟩
    exact notMem_joined (by decide) fun parameter hin => hplain parameter (mem_groups hgroup hin)
  have hlead : (if r.parameters ≠ [] then [blank] else []) ++
      joined blank ((groups ranges 0 r.parameters).map (joined comma)) =
        joined blank ([] :: (groups ranges 0 r.parameters).map (joined comma)) := by
    by_cases hnil : r.parameters = []
    · simp [hnil, groups, joined]
    · have hgroups := groups_ne_nil ranges 0 hnil
      rw [if_pos hnil, List.singleton_append, sep_joined (by simpa using hgroups), joined_cons]
      rfl
  constructor
  · intro hsplit
    refine List.append_cancel_left (hlead.trans ?_).symm
    rw [← hsplit]
    exact List.intercalate_splitOn blank
  · intro htext
    rw [htext, hlead]
    exact List.splitOn_intercalate blank hblank (List.cons_ne_nil _ _)

end Emitted

def joinTwo : Record :=
  ⟨{}, .string (text "JOIN"), [text "#a", text "#b", text "x", text "y"]⟩

/-- The channels alone are a list behind which nothing comes. -/
theorem lists_encoded_names : (∃ part, text "NAMES #a,#b\r\n" =
      prefixText {} ++ (commandText (.string (text "NAMES")) ++ (part ++ crlf)) ∧
    part.splitOn blank = [] :: (groups [(0, 1)] 0 [text "#a", text "#b"]).map (joined comma)) ↔
      ∀ range ∈ [(0, 1)], [text "#a", text "#b"].length ≤ range.2 + 1 :=
  @lists_encoded_iff ⟨[], 512⟩ ⟨text "NAMES #a,#b\r\n", 499⟩
    ⟨{}, .string (text "NAMES"), [text "#a", text "#b"]⟩ [(0, 1)] ⟨by decide, by decide⟩ (by decide)
    (by decide +kernel)

/-- The last channel has a comma behind it. -/
theorem join_not_encoded :
    handleListMessage ⟨[], 512⟩ joinTwo [(0, 1), (2, 3)] =
        .ok (some ⟨text "JOIN #a,#b,x,y\r\n", 496⟩) ∧
      (text " #a,#b,x,y").splitOn blank ≠
        [] :: (groups [(0, 1), (2, 3)] 0 joinTwo.parameters).map (joined comma) := by
  decide +kernel

end ACENetwork.IRC.Streamer
