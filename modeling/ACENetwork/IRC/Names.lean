import ACENetwork.IRC.Session
import ACENetwork.Library.Runs

/-!
# The names of a channel

A server may list the names of a channel in several replies. The session keeps those of the last
one.
-/
namespace ACENetwork.IRC
open Library

variable (split : Bytes → UInt8 → List Bytes)

def Record.ListsNames (r : Record) : Prop := r.command = .numeric 353 ∧ 3 ≤ r.parameters.length

def Record.EndsNames (r : Record) : Prop := r.command = .numeric 366 ∧ 1 ≤ r.parameters.length

def Record.namesKey (r : Record) : Bytes := tolower (r.parameters.getD 2 [])

def Record.names (r : Record) : List Bytes := split (r.parameters.getLastD []) 0x20

def pieces (key : Bytes) (replies : List Record) : List (List Bytes) :=
  (replies.filter fun r => r.command = .numeric 353 ∧ r.namesKey = key).map (Record.names split)

variable {split}

theorem notify_listsNames {s : SessionState} {r : Record} (h : r.ListsNames) :
    notify split s r =
      .ok { s with channelToNames := s.channelToNames.assign r.namesKey (r.names split) } := by
  obtain ⟨sender, command, parameters⟩ := r
  obtain ⟨rfl, hlength⟩ := h
  match parameters, hlength with
  | first :: second :: channel :: rest, _ =>
    have hback : back (first :: second :: channel :: rest) =
        .ok ((first :: second :: channel :: rest).getLastD []) := by
      simp [back, List.getLast?_cons]
    have hthree : ¬ (first :: second :: channel :: rest).length < 3 := by simp
    show namReply split s (first :: second :: channel :: rest) = _
    rw [namReply, if_neg hthree, hback]
    rfl

theorem notify_endsNames {s : SessionState} {r : Record} (h : r.EndsNames) :
    notify split s r = .ok s := by
  obtain ⟨sender, command, parameters⟩ := r
  obtain ⟨rfl, hlength⟩ := h
  show (advance parameters 1 >>= fun _ => Except.ok s) = _
  rw [advance, if_pos hlength]
  rfl

theorem pieces_listsNames {r : Record} (h : r.ListsNames) (replies : List Record) :
    pieces split r.namesKey (r :: replies) = r.names split :: pieces split r.namesKey replies := by
  simp [pieces, h.1]

theorem pieces_other {r : Record} {key : Bytes} (h : r.command = .numeric 353 → r.namesKey ≠ key)
    (replies : List Record) : pieces split key (r :: replies) = pieces split key replies := by
  have hdrop : ¬ (r.command = .numeric 353 ∧ r.namesKey = key) := fun hr => h hr.1 hr.2
  simp [pieces, hdrop]

theorem run_names (split : Bytes → UInt8 → List Bytes) {replies : List Record} (h : ∀ r ∈ replies, r.ListsNames ∨ r.EndsNames)
    (s : SessionState) : ∃ s', Runs.run (notify split) s replies = .ok s' ∧ ∀ key,
      s'.channelToNames.find? key =
        (pieces split key replies).getLast?.or (s.channelToNames.find? key) := by
  induction replies generalizing s with
  | nil => exact ⟨s, rfl, fun key => rfl⟩
  | cons r replies ih =>
    obtain ⟨hr, hreplies⟩ := List.forall_mem_cons.mp h
    rcases hr with hlist | hend
    · obtain ⟨s', hrun, hnames⟩ := ih hreplies
        { s with channelToNames := s.channelToNames.assign r.namesKey (r.names split) }
      refine ⟨s', Runs.run_cons_ok.mpr ⟨_, notify_listsNames hlist, hrun⟩, fun key => ?_⟩
      rw [hnames, OrderedMap.find?_assign]
      by_cases hkey : r.namesKey = key
      · subst hkey
        rw [if_pos rfl, pieces_listsNames hlist, List.getLast?_cons]
        cases (pieces split r.namesKey replies).getLast? with
        | none => rfl
        | some last => rfl
      · rw [if_neg hkey, pieces_other fun _ => hkey]
    · obtain ⟨s', hrun, hnames⟩ := ih hreplies s
      refine ⟨s', Runs.run_cons_ok.mpr ⟨_, notify_endsNames hend, hrun⟩, fun key => ?_⟩
      rw [hnames, pieces_other]
      rw [hend.1]
      intro hcode
      cases hcode

/-- All names are there behind the replies exactly if the last piece repeats those of the pieces
before it. -/
theorem names_complete_iff (split : Bytes → UInt8 → List Bytes) (s : SessionState)
    (channel : Bytes) {replies : List Record} (h : ∀ r ∈ replies, r.ListsNames ∨ r.EndsNames) :
    ∃ s', Runs.run (notify split) s replies = .ok s' ∧
      ((∀ piece ∈ pieces split (tolower channel) replies, ∀ name ∈ piece,
          ∃ names, s'.channelToNames.find? (tolower channel) = some names ∧ name ∈ names) ↔
        ∀ piece ∈ pieces split (tolower channel) replies,
          ∀ last ∈ (pieces split (tolower channel) replies).getLast?, piece ⊆ last) := by
  obtain ⟨s', hrun, hnames⟩ := run_names split h s
  refine ⟨s', hrun, ?_⟩
  rw [hnames (tolower channel)]
  refine forall₂_congr fun piece hin => ?_
  have hne := List.ne_nil_of_mem hin
  rw [List.getLast?_eq_some_getLast hne]
  simp only [Option.some_or, Option.some.injEq, exists_eq_left', Option.mem_def, forall_eq']
  rfl

/-- A list in one reply, with a reply for another channel in between. -/
def listed : List Record :=
  [⟨{}, .numeric 353, [text "me", text "=", text "#c", text "@me you"]⟩,
    ⟨{}, .numeric 353, [text "me", text "=", text "#d", text "me"]⟩,
    ⟨{}, .numeric 366, [text "me", text "#c"]⟩]

theorem listed_complete : ∃ s', Runs.run (notify fun s c => s.splitOn c) (start (text "me")) listed =
      .ok s' ∧
    ((∀ piece ∈ pieces (fun s c => s.splitOn c) (tolower (text "#c")) listed, ∀ name ∈ piece,
        ∃ names, s'.channelToNames.find? (tolower (text "#c")) = some names ∧ name ∈ names) ↔
      ∀ piece ∈ pieces (fun s c => s.splitOn c) (tolower (text "#c")) listed,
        ∀ last ∈ (pieces (fun s c => s.splitOn c) (tolower (text "#c")) listed).getLast?,
          piece ⊆ last) := by
  refine names_complete_iff (fun s c => s.splitOn c) (start (text "me")) (text "#c") ?_
  intro r hr
  simp only [listed, List.mem_cons, List.not_mem_nil, or_false] at hr
  rcases hr with rfl | rfl | rfl
  · exact Or.inl ⟨rfl, by decide⟩
  · exact Or.inl ⟨rfl, by decide⟩
  · exact Or.inr ⟨rfl, by decide⟩

def listedTwice : List Record :=
  [⟨{}, .numeric 353, [text "me", text "=", text "#c", text "@me"]⟩,
    ⟨{}, .numeric 353, [text "me", text "=", text "#c", text "you"]⟩,
    ⟨{}, .numeric 366, [text "me", text "#c"]⟩]

theorem listedTwice_incomplete : ∃ s',
    Runs.run (notify fun s c => s.splitOn c) (start (text "me")) listedTwice = .ok s' ∧
      text "@me" ∈ (pieces (fun s c => s.splitOn c) (tolower (text "#c")) listedTwice).flatten ∧
      ∃ names, s'.channelToNames.find? (tolower (text "#c")) = some names ∧ text "@me" ∉ names := by
  have hreplies : ∀ r ∈ listedTwice, r.ListsNames ∨ r.EndsNames := by
    intro r hr
    simp only [listedTwice, List.mem_cons, List.not_mem_nil, or_false] at hr
    rcases hr with rfl | rfl | rfl
    · exact Or.inl ⟨rfl, by decide⟩
    · exact Or.inl ⟨rfl, by decide⟩
    · exact Or.inr ⟨rfl, by decide⟩
  have hpieces : pieces (fun s c => s.splitOn c) (tolower (text "#c")) listedTwice =
      [[text "@me"], [text "you"]] := by
    decide +kernel
  obtain ⟨s', hrun, hnames⟩ :=
    run_names (fun s c => s.splitOn c) hreplies (start (text "me"))
  refine ⟨s', hrun, ?_, [text "you"], ?_, by decide⟩
  · rw [hpieces]
    decide
  · rw [hnames, hpieces]
    rfl

end ACENetwork.IRC
