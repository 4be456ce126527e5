import ACENetwork.Library.Backtracking
import ACENetwork.Library.Text

/-!
# Lines on the console

`IRC_Tools::parse` splits a line into a command and its parameters with one regular expression.
Its groups are in a repetition, and a group keeps one text only.
-/
namespace ACENetwork.IRC.CommandLine
open Library

def slash : UInt8 := 0x2F
def quote : UInt8 := 0x22
def space : UInt8 := 0x20

def unquoted (b : UInt8) : Bool := b != quote

section Parse

/-- A text in quotes, without them. -/
def quotedText (n : ℕ) : Pattern UInt8 :=
  .seq (.word [quote]) (.seq (.group n (.chars unquoted 0 none)) (.word [quote]))

def bareText (n : ℕ) : Pattern UInt8 := .group n (.chars unquoted 1 none)

variable {β : Type}

def parameterItem : Matcher UInt8 β :=
  .both (.either (quotedText 2).run (bareText 3).run) (Pattern.chars isSpace 1 none).run

/-- The groups in a repetition before a round. The standard clears them, and libraries differ. -/
def cleared (resets : Bool) (g : Groups UInt8) : Groups UInt8 := fun n =>
  if resets && (n == 2 || n == 3) then none else g n

def parameterItems (resets : Bool) : Matcher UInt8 β :=
  .both (.star (cleared resets) parameterItem) (.maybe (.either (quotedText 4).run (bareText 5).run))

def linePattern (resets : Bool) : Matcher UInt8 β :=
  .both (Pattern.seq (.word [slash])
    (.seq (.group 1 (.chars isAlpha 1 none)) (.chars isSpace 0 none))).run (parameterItems resets)

def parameterTexts (g : Groups UInt8) : List Bytes := [2, 3, 4, 5].filterMap g

/-- `IRC_Tools::parse`: the word of the command, whose first letter tells which it is, and the
parameters. -/
def parse (resets : Bool) (inputString : Bytes) : Option (Bytes × List Bytes) := do
  let matchResults ← linePattern resets Pattern.atEnd inputString fun _ => none
  let command ← matchResults 1
  some (command, parameterTexts matchResults)

end Parse

inductive Parameter where
  | word (w : Bytes) (nonempty : w ≠ []) (plain : ∀ b ∈ w, b ≠ space ∧ b ≠ quote)
  | quoted (q : Bytes) (plain : ∀ b ∈ q, b ≠ quote)

namespace Parameter

def content : Parameter → Bytes
  | word w _ _ => w
  | quoted q _ => q

def written : Parameter → Bytes
  | word w _ _ => w
  | quoted q _ => quote :: (q ++ [quote])

def IsQuoted : Parameter → Prop
  | word _ _ _ => False
  | quoted _ _ => True

def Starts : Parameter → Prop
  | word w _ _ => Stops isSpace w
  | quoted _ _ => True

def Unbroken : Parameter → Prop
  | word w _ _ => ∀ b ∈ w, isSpace b = false
  | quoted _ _ => True

end Parameter

def parametersText (parameters : List Parameter) : Bytes :=
  parameters.flatMap fun parameter => space :: parameter.written

def Splits (resets : Bool) : List Parameter → Prop
  | [] => True
  | [last] => last.Unbroken
  | [first, last] => first.Starts ∧ last.Unbroken
  | [first, second, last] => resets = false ∧ first.Starts ∧ second.Starts ∧ last.Unbroken ∧
      (first.IsQuoted ∧ ¬ second.IsQuoted ∨
        ¬ first.IsQuoted ∧ second.IsQuoted ∧ first.content = second.content)
  | _ => False

section Texts

variable {β : Type} {k : Bytes → Groups UInt8 → Option β} {g : Groups UInt8} {n : ℕ}

theorem unquoted_iff {b : UInt8} : unquoted b = true ↔ b ≠ quote := bne_iff_ne

theorem unquoted_of_space {b : UInt8} (h : isSpace b = true) : unquoted b = true := by
  rw [unquoted_iff]
  rintro rfl
  cases h

theorem stops_quote (rest : Bytes) : Stops unquoted (quote :: rest) := by
  intro b hb
  cases hb
  rfl

theorem stops_space_quote (rest : Bytes) : Stops isSpace (quote :: rest) := by
  intro b hb
  cases hb
  rfl

theorem quote_none {s : Bytes} (hs : s.head? ≠ some quote) :
    (Pattern.word [quote]).run k s g = none := by
  cases s with
  | nil => rfl
  | cons b s =>
    have hne : quote ≠ b := fun h => hs (by rw [h]; rfl)
    simp [Pattern.run, hne]

theorem quotedText_run {q : Bytes} (hq : ∀ b ∈ q, b ≠ quote) (rest : Bytes) :
    (quotedText n).run k (quote :: (q ++ quote :: rest)) g =
      k rest (Function.update g n (some q)) := by
  have htext : ∀ b ∈ q, unquoted b = true := fun b hb => unquoted_iff.2 (hq b hb)
  have hword : ([quote] : Bytes).isPrefixOf (quote :: (q ++ quote :: rest)) = true := by
    simp
  have hend (g : Groups UInt8) :
      (Pattern.word [quote]).run k (quote :: rest) g = k rest g := by
    simp [Pattern.run]
  rw [quotedText, Pattern.run, Pattern.run, if_pos hword]
  show (Pattern.group n (.chars unquoted 0 none)).run
    (fun rest g => (Pattern.word [quote]).run k rest g) (q ++ quote :: rest) g = _
  rw [Pattern.run_group htext (stops_quote rest), if_pos (Nat.zero_le _), hend]
  intro m g' _ hm
  refine quote_none ?_
  rw [List.head?_append, List.head?_drop, List.getElem?_eq_getElem hm]
  exact fun h => hq _ (List.getElem_mem hm) (Option.some.inj h)

theorem quotedText_none {s : Bytes} (hs : s.head? ≠ some quote) :
    (quotedText n).run k s g = none :=
  quote_none hs

theorem bareText_none {s : Bytes} (hs : Stops unquoted s) : (bareText n).run k s g = none := by
  have hrun : (bareText n).run k ([] ++ s) g = _ := Pattern.run_group (by simp) hs (by simp)
  rw [List.nil_append] at hrun
  rw [hrun]
  rfl

theorem bareText_run {b : β} {text rest v : Bytes} {c : UInt8} (htext : ∀ b ∈ text, unquoted b = true)
    (hne : text ≠ []) (hc : ∀ b ∈ c :: v, unquoted b = true) (hrest : Stops unquoted rest)
    (hk : k (c :: (v ++ rest)) (Function.update g n (some text)) = some b)
    (hlonger : ∀ v' g', v' <:+ v → k (v' ++ rest) g' = none) :
    (bareText n).run k (text ++ (c :: (v ++ rest))) g = some b := by
  have hall : ∀ b ∈ text ++ c :: v, unquoted b = true := by
    intro b hb
    rcases List.mem_append.mp hb with hb | hb
    · exact htext b hb
    · exact hc b hb
  have hsplit : text ++ (c :: (v ++ rest)) = (text ++ c :: v) ++ rest := by simp
  have hpos := List.length_pos_iff.mpr hne
  rw [bareText, Pattern.run_capture, Pattern.run_class, hsplit, takeWhile_run hall hrest]
  refine findSome_descending_at (n := text.length) hpos ?_ ?_ ?_
  · simp
  · rw [List.append_assoc, List.drop_left]
    simpa using hk
  · intro m hm hle
    obtain ⟨d, rfl⟩ := Nat.exists_eq_add_of_lt hm
    have hle : d ≤ v.length := by
      simp only [Option.elim_none, List.length_append, List.length_cons] at hle
      omega
    have hdrop : ((text ++ c :: v) ++ rest).drop (text.length + d + 1) = v.drop d ++ rest := by
      rw [List.append_assoc, Nat.add_assoc, List.drop_length_add_append, List.cons_append,
        List.drop_succ_cons, List.drop_append_of_le_length hle]
    simp only [hdrop]
    exact hlonger _ _ (List.drop_suffix d v)

theorem bareText_fails {text rest : Bytes} (htext : ∀ b ∈ text, unquoted b = true)
    (hrest : Stops unquoted rest)
    (hk : ∀ m g', 1 ≤ m → k (text.drop m ++ rest) g' = none) :
    (bareText n).run k (text ++ rest) g = none := by
  rw [bareText, Pattern.run_group htext hrest fun m g' hm _ => hk m g' hm]
  split_ifs with hpos
  · have hlast := hk text.length (Function.update g n (some text)) hpos
    rwa [List.drop_length, List.nil_append] at hlast
  · rfl

end Texts

section Tail

variable {β : Type} {k : Bytes → Groups UInt8 → Option β} {g : Groups UInt8} {resets : Bool}

def finish : Bytes → Groups UInt8 → Option (Groups UInt8) :=
  Matcher.maybe (.either (quotedText 4).run (bareText 5).run) Pattern.atEnd

def tail (resets : Bool) : Bytes → Groups UInt8 → Option (Groups UInt8) :=
  Matcher.star (cleared resets) parameterItem finish

theorem spaces_run {b : β} {blanks rest : Bytes} (hblanks : ∀ b ∈ blanks, isSpace b = true)
    (hne : blanks ≠ []) (hrest : Stops isSpace rest) (hk : k rest g = some b) :
    (Pattern.chars isSpace 1 none).run k (blanks ++ rest) g = some b :=
  Pattern.run_chars_first hblanks hrest (List.length_pos_iff.mpr hne) hk

theorem spaces_none {s : Bytes} (hs : Stops isSpace s) :
    (Pattern.chars isSpace 1 none).run k s g = none := by
  have hrun : (Pattern.chars isSpace 1 none).run k ([] ++ s) g = _ :=
    Pattern.run_chars (by simp) hs (by simp)
  rw [List.nil_append] at hrun
  rw [hrun]
  rfl

theorem finish_nil : finish [] g = some g := by
  have hquoted : (quotedText 4).run Pattern.atEnd [] g = none := quotedText_none (by simp)
  have hbare : (bareText 5).run Pattern.atEnd [] g = none := bareText_none (by simp [Stops])
  rw [finish, Matcher.maybe, Matcher.either, hquoted, hbare]
  rfl

theorem finish_quoted {q : Bytes} (hq : ∀ b ∈ q, b ≠ quote) :
    finish (quote :: (q ++ [quote])) g = some (Function.update g 4 (some q)) := by
  rw [finish, Matcher.maybe, Matcher.either, quotedText_run hq]
  rfl

theorem head_ne_quote {text : Bytes} (htext : ∀ b ∈ text, unquoted b = true) (hne : text ≠ [])
    (rest : Bytes) : (text ++ rest).head? ≠ some quote := by
  obtain ⟨b, text, rfl⟩ := List.exists_cons_of_ne_nil hne
  intro h
  exact unquoted_iff.1 (htext b List.mem_cons_self) (Option.some.inj h)

theorem finish_bare {text : Bytes} (htext : ∀ b ∈ text, unquoted b = true) (hne : text ≠ []) :
    finish text g = some (Function.update g 5 (some text)) := by
  have hhead := head_ne_quote htext hne []
  rw [List.append_nil] at hhead
  have hbare : (bareText 5).run Pattern.atEnd (text ++ []) g =
      some (Function.update g 5 (some text)) :=
    Pattern.run_group_first htext (by simp [Stops]) (List.length_pos_iff.mpr hne) rfl
  rw [List.append_nil] at hbare
  rw [finish, Matcher.maybe, Matcher.either, quotedText_none hhead, hbare]
  rfl

theorem item_quoted {b : β} {q blanks rest : Bytes} (hq : ∀ b ∈ q, b ≠ quote)
    (hblanks : ∀ b ∈ blanks, isSpace b = true) (hne : blanks ≠ []) (hrest : Stops isSpace rest)
    (hk : k rest (Function.update g 2 (some q)) = some b) :
    parameterItem k (quote :: (q ++ quote :: (blanks ++ rest))) g = some b := by
  rw [parameterItem, Matcher.both, Matcher.either, quotedText_run hq,
    spaces_run hblanks hne hrest hk]
  rfl

theorem item_quoted_end {q : Bytes} (hq : ∀ b ∈ q, b ≠ quote) :
    parameterItem k (quote :: (q ++ [quote])) g = none := by
  rw [parameterItem, Matcher.both, Matcher.either, quotedText_run hq,
    spaces_none (by simp [Stops]), bareText_none (stops_quote _)]
  rfl

theorem item_bare {b : β} {text v rest : Bytes} {c : UInt8}
    (htext : ∀ b ∈ text, unquoted b = true) (hne : text ≠ []) (hc : isSpace c = true)
    (hv : ∀ b ∈ v, unquoted b = true ∧ isSpace b = false) (hrest : Stops unquoted rest)
    (hspace : Stops isSpace rest) (hk : k (v ++ rest) (Function.update g 3 (some text)) = some b) :
    parameterItem k (text ++ (c :: (v ++ rest))) g = some b := by
  have hstops : ∀ v', v' <:+ v → Stops isSpace (v' ++ rest) := by
    intro v' hsuffix
    cases v' with
    | nil => exact hspace
    | cons b v' =>
      intro b' hb'
      cases hb'
      exact (hv b (hsuffix.subset List.mem_cons_self)).2
  have hall : ∀ b ∈ c :: v, unquoted b = true := by
    rw [List.forall_mem_cons]
    exact ⟨unquoted_of_space hc, fun b hb => (hv b hb).1⟩
  rw [parameterItem, Matcher.both, Matcher.either,
    quotedText_none (head_ne_quote htext hne _), Option.none_or]
  refine bareText_run htext hne hall hrest ?_ fun v' g' hsuffix => spaces_none (hstops v' hsuffix)
  have hblanks : ∀ b ∈ [c], isSpace b = true := by simpa using hc
  exact spaces_run hblanks (List.cons_ne_nil c []) (hstops v List.suffix_rfl) hk

theorem item_bare_end {text : Bytes} (htext : ∀ b ∈ text, unquoted b = true ∧ isSpace b = false)
    (hne : text ≠ []) : parameterItem k text g = none := by
  have hunquoted : ∀ b ∈ text, unquoted b = true := fun b hb => (htext b hb).1
  have hhead := head_ne_quote hunquoted hne []
  rw [List.append_nil] at hhead
  rw [parameterItem, Matcher.both, Matcher.either, quotedText_none hhead, Option.none_or]
  have hstops (m : ℕ) : Stops isSpace (text.drop m ++ []) := by
    rw [List.append_nil]
    intro b hb
    exact (htext b (List.mem_of_mem_drop (List.mem_of_mem_head? hb))).2
  have hbare : (bareText 3).run (fun rest g => (Pattern.chars isSpace 1 none).run k rest g)
      (text ++ []) g = none :=
    bareText_fails hunquoted (by simp [Stops]) fun m g' _ => spaces_none (hstops m)
  rwa [List.append_nil] at hbare

theorem tail_nil : tail resets [] g = some g := finish_nil

theorem tail_round {s : Bytes} {g' : Groups UInt8} (hne : s ≠ [])
    (h : parameterItem (fun rest g => if rest.length < s.length then tail resets rest g else none) s
      (cleared resets g) = some g') : tail resets s g = some g' := by
  obtain ⟨a, s, rfl⟩ := List.exists_cons_of_ne_nil hne
  rw [tail, Matcher.star_cons]
  unfold tail at h
  rw [h]
  rfl

theorem tail_stop {s : Bytes} (hne : s ≠ [])
    (h : ∀ (k : Bytes → Groups UInt8 → Option (Groups UInt8)) g, parameterItem k s g = none) :
    tail resets s g = finish s g := by
  obtain ⟨a, s, rfl⟩ := List.exists_cons_of_ne_nil hne
  rw [tail, Matcher.star_cons, h, Option.none_or]

theorem tail_quoted {q blanks rest : Bytes} {g' : Groups UInt8} (hq : ∀ b ∈ q, b ≠ quote)
    (hblanks : ∀ b ∈ blanks, isSpace b = true) (hne : blanks ≠ []) (hrest : Stops isSpace rest)
    (h : tail resets rest (Function.update (cleared resets g) 2 (some q)) = some g') :
    tail resets (quote :: (q ++ quote :: (blanks ++ rest))) g = some g' := by
  refine tail_round (List.cons_ne_nil _ _) (item_quoted hq hblanks hne hrest ?_)
  rw [if_pos ?_, h]
  simp
  omega

theorem tail_quoted_end {q : Bytes} (hq : ∀ b ∈ q, b ≠ quote) :
    tail resets (quote :: (q ++ [quote])) g = some (Function.update g 4 (some q)) := by
  rw [tail_stop (List.cons_ne_nil _ _) fun k g => item_quoted_end hq, finish_quoted hq]

theorem tail_bare {text v rest : Bytes} {c : UInt8} {g' : Groups UInt8}
    (htext : ∀ b ∈ text, unquoted b = true) (hne : text ≠ []) (hc : isSpace c = true)
    (hv : ∀ b ∈ v, unquoted b = true ∧ isSpace b = false) (hrest : Stops unquoted rest)
    (hspace : Stops isSpace rest)
    (h : tail resets (v ++ rest) (Function.update (cleared resets g) 3 (some text)) = some g') :
    tail resets (text ++ (c :: (v ++ rest))) g = some g' := by
  refine tail_round (by simp) (item_bare htext hne hc hv hrest hspace ?_)
  rw [if_pos ?_, h]
  simp
  omega

theorem tail_bare_end {text : Bytes} (htext : ∀ b ∈ text, unquoted b = true ∧ isSpace b = false)
    (hne : text ≠ []) : tail resets text g = some (Function.update g 5 (some text)) := by
  rw [tail_stop hne fun k g => item_bare_end htext hne,
    finish_bare (fun b hb => (htext b hb).1) hne]

end Tail

section Outcome

variable {resets : Bool} {word : Bytes} {a b : Option Bytes}

/-- The groups of the command and of the last quoted and bare texts of the repetition. -/
def held (word : Bytes) (a b : Option Bytes) : Groups UInt8 := fun n =>
  if n = 1 then some word else if n = 2 then a else if n = 3 then b else none

/-- What is left of a text when the other group of the repetition gets one. -/
def kept (resets : Bool) (a : Option Bytes) : Option Bytes := if resets then none else a

def outcome (resets : Bool) (word s : Bytes) (a b : Option Bytes) : Option (Bytes × List Bytes) := do
  let matchResults ← tail resets s (held word a b)
  let command ← matchResults 1
  some (command, parameterTexts matchResults)

theorem cleared_held : cleared resets (held word a b) = held word (kept resets a) (kept resets b) := by
  funext n
  cases resets with
  | false => rfl
  | true =>
    by_cases htwo : n = 2
    · simp [cleared, held, kept, htwo]
    · by_cases hthree : n = 3
      · simp [cleared, held, kept, hthree]
      · simp [cleared, held, htwo, hthree]

theorem update_two (q : Bytes) :
    Function.update (held word a b) 2 (some q) = held word (some q) b := by
  funext n
  by_cases hn : n = 2
  · subst hn
    rfl
  · simp [held, hn]

theorem update_three (u : Bytes) :
    Function.update (held word a b) 3 (some u) = held word a (some u) := by
  funext n
  by_cases hn : n = 3
  · subst hn
    rfl
  · simp [held, hn]

theorem parameterTexts_held (word : Bytes) (a b : Option Bytes) : parameterTexts (held word a b) = a.toList ++ b.toList := by
  cases a <;> cases b <;> rfl

theorem parameterTexts_four (word : Bytes) (a b : Option Bytes) (q : Bytes) :
    parameterTexts (Function.update (held word a b) 4 (some q)) = a.toList ++ b.toList ++ [q] := by
  cases a <;> cases b <;> rfl

theorem parameterTexts_five (word : Bytes) (a b : Option Bytes) (t : Bytes) :
    parameterTexts (Function.update (held word a b) 5 (some t)) = a.toList ++ b.toList ++ [t] := by
  cases a <;> cases b <;> rfl

theorem outcome_of_tail {s s' : Bytes} {a' b' : Option Bytes} {r : Bytes × List Bytes}
    (htail : ∀ g', tail resets s' (held word a' b') = some g' →
      tail resets s (held word a b) = some g')
    (h : outcome resets word s' a' b' = some r) : outcome resets word s a b = some r := by
  rw [outcome] at h ⊢
  obtain ⟨g', hg', hr⟩ := Option.bind_eq_some_iff.mp h
  rw [htail g' hg']
  exact hr

theorem outcome_nil : outcome resets word [] a b = some (word, a.toList ++ b.toList) := by
  rw [outcome, tail_nil, ← parameterTexts_held word]
  rfl

theorem outcome_quoted {q blanks rest : Bytes} {r : Bytes × List Bytes} (hq : ∀ b ∈ q, b ≠ quote)
    (hblanks : ∀ b ∈ blanks, isSpace b = true) (hne : blanks ≠ []) (hrest : Stops isSpace rest)
    (h : outcome resets word rest (some q) (kept resets b) = some r) :
    outcome resets word (quote :: (q ++ quote :: (blanks ++ rest))) a b = some r := by
  refine outcome_of_tail (fun g' hg' => ?_) h
  refine tail_quoted hq hblanks hne hrest ?_
  rw [cleared_held, update_two, hg']

theorem outcome_quoted_end {q : Bytes} (hq : ∀ b ∈ q, b ≠ quote) :
    outcome resets word (quote :: (q ++ [quote])) a b =
      some (word, a.toList ++ b.toList ++ [q]) := by
  rw [outcome, tail_quoted_end hq, ← parameterTexts_four word]
  rfl

theorem outcome_bare {text v rest : Bytes} {c : UInt8} {r : Bytes × List Bytes}
    (htext : ∀ b ∈ text, unquoted b = true) (hne : text ≠ []) (hc : isSpace c = true)
    (hv : ∀ b ∈ v, unquoted b = true ∧ isSpace b = false) (hrest : Stops unquoted rest)
    (hspace : Stops isSpace rest)
    (h : outcome resets word (v ++ rest) (kept resets a) (some text) = some r) :
    outcome resets word (text ++ (c :: (v ++ rest))) a b = some r := by
  refine outcome_of_tail (fun g' hg' => ?_) h
  refine tail_bare htext hne hc hv hrest hspace ?_
  rw [cleared_held, update_three, hg']

theorem outcome_bare_end {text : Bytes} (htext : ∀ b ∈ text, unquoted b = true ∧ isSpace b = false)
    (hne : text ≠ []) :
    outcome resets word text a b = some (word, a.toList ++ b.toList ++ [text]) := by
  rw [outcome, tail_bare_end htext hne, ← parameterTexts_five word]
  rfl

theorem exists_last_space (t : Bytes) : (∀ b ∈ t, isSpace b = false) ∨
    ∃ u c v, t = u ++ c :: v ∧ isSpace c = true ∧ ∀ b ∈ v, isSpace b = false := by
  induction t with
  | nil => exact Or.inl fun b hb => absurd hb List.not_mem_nil
  | cons d t ih =>
    rcases ih with hnone | ⟨u, c, v, rfl, hc, hv⟩
    · by_cases hd : isSpace d = true
      · exact Or.inr ⟨[], d, t, rfl, hd, hnone⟩
      · rw [Bool.not_eq_true] at hd
        exact Or.inl (List.forall_mem_cons.mpr ⟨hd, hnone⟩)
    · exact Or.inr ⟨d :: u, c, v, rfl, hc, hv⟩

/-- A line that ends with words: they are cut at the last white space. -/
inductive Cut (resets : Bool) (a b : Option Bytes) (t : Bytes) : List Bytes → Prop
  | nothing (ht : t = []) : Cut resets a b t (a.toList ++ b.toList)
  | whole (ht : ∀ b ∈ t, isSpace b = false) : Cut resets a b t (a.toList ++ b.toList ++ [t])
  | front {u : Bytes} {c : UInt8} (ht : t = u ++ [c]) (hc : isSpace c = true) :
      Cut resets a b t ((kept resets a).toList ++ [u])
  | both {u v : Bytes} {c : UInt8} (ht : t = u ++ c :: v) (hu : Stops isSpace u)
      (hc : isSpace c = true) (hv : ∀ b ∈ v, isSpace b = false) :
      Cut resets a b t ((kept resets a).toList ++ [u, v])

theorem outcome_cut (resets : Bool) (word : Bytes) (a b : Option Bytes) {t : Bytes} (ht : ∀ b ∈ t, unquoted b = true) (hstops : Stops isSpace t) :
    ∃ result, outcome resets word t a b = some (word, result) ∧ Cut resets a b t result := by
  by_cases hnil : t = []
  · subst hnil
    exact ⟨_, outcome_nil, .nothing rfl⟩
  rcases exists_last_space t with hnone | ⟨u, c, v, rfl, hc, hv⟩
  · exact ⟨_, outcome_bare_end (fun b hb => ⟨ht b hb, hnone b hb⟩) hnil, .whole hnone⟩
  · have hu : ∀ b ∈ u, unquoted b = true := fun b hb => ht b (List.mem_append_left _ hb)
    have hv' : ∀ b ∈ v, unquoted b = true ∧ isSpace b = false := fun b hb =>
      ⟨ht b (List.mem_append_right _ (List.mem_cons_of_mem _ hb)), hv b hb⟩
    have hne : u ≠ [] := by
      rintro rfl
      have hfalse := hstops c rfl
      rw [hc] at hfalse
      cases hfalse
    have hustops : Stops isSpace u := by
      obtain ⟨d, u, rfl⟩ := List.exists_cons_of_ne_nil hne
      exact fun b hb => hstops b hb
    have hstep {r : Bytes × List Bytes}
        (h : outcome resets word v (kept resets a) (some u) = some r) :
        outcome resets word (u ++ c :: v) a b = some r := by
      have hbare : outcome resets word (u ++ c :: (v ++ [])) a b = some r :=
        outcome_bare hu hne hc hv' (by simp [Stops]) (by simp [Stops]) (by rwa [List.append_nil])
      rwa [List.append_nil] at hbare
    by_cases hvnil : v = []
    · subst hvnil
      exact ⟨_, hstep outcome_nil, .front rfl hc⟩
    · refine ⟨_, hstep (outcome_bare_end hv' hvnil), ?_⟩
      rw [List.append_assoc]
      exact .both rfl hustops hc hv

end Outcome

section Decides

variable {resets : Bool} {word : Bytes} {a b : Option Bytes} {expected : List Bytes} {holds : Prop}

def Decides (resets : Bool) (word s : Bytes) (a b : Option Bytes) (expected : List Bytes)
    (holds : Prop) : Prop :=
  ∃ result, outcome resets word s a b = some (word, result) ∧ (result = expected ↔ holds)

theorem Decides.congr {s : Bytes} {holds' : Prop} (h : Decides resets word s a b expected holds)
    (hiff : holds ↔ holds') : Decides resets word s a b expected holds' := by
  obtain ⟨result, houtcome, hresult⟩ := h
  exact ⟨result, houtcome, hresult.trans hiff⟩

theorem dropWhile_space {w : Bytes} : w.dropWhile isSpace = w ↔ Stops isSpace w := by
  rw [List.dropWhile_eq_self_iff]
  cases w with
  | nil => simp [Stops]
  | cons b w => simp [Stops]

theorem stops_of_unbroken {w : Bytes} (hw : ∀ b ∈ w, isSpace b = false) : Stops isSpace w :=
  fun b hb => hw b (List.mem_of_mem_head? hb)

theorem stops_dropWhile (w : Bytes) : Stops isSpace (w.dropWhile isSpace) := by
  intro b hb
  have hhead := List.head?_dropWhile_not isSpace w
  rw [Option.mem_def.mp hb] at hhead
  simpa using hhead

theorem unquoted_dropWhile {w : Bytes} (hw : ∀ b ∈ w, unquoted b = true) :
    ∀ b ∈ w.dropWhile isSpace, unquoted b = true :=
  fun b hb => hw b ((List.dropWhile_suffix isSpace).subset hb)

theorem last_space_unique {u v x w : Bytes} {c d : UInt8} (hc : isSpace c = true)
    (hd : isSpace d = true) (hv : ∀ b ∈ v, isSpace b = false) (hw : ∀ b ∈ w, isSpace b = false)
    (h : u ++ c :: v = x ++ d :: w) : u = x ∧ v = w := by
  have hreverse : v.reverse ++ (c :: u.reverse) = w.reverse ++ (d :: x.reverse) := by
    simpa using congrArg List.reverse h
  have hvs : ∀ b ∈ v.reverse, (!isSpace b) = true := by simpa using hv
  have hws : ∀ b ∈ w.reverse, (!isSpace b) = true := by simpa using hw
  have hcs : Stops (fun b => !isSpace b) (c :: u.reverse) := by simp [Stops, hc]
  have hds : Stops (fun b => !isSpace b) (d :: x.reverse) := by simp [Stops, hd]
  obtain ⟨hvw, hux⟩ := run_unique hvs hws hcs hds hreverse
  exact ⟨List.reverse_injective (List.cons.inj hux).2, List.reverse_injective hvw⟩

theorem snoc_eq_snoc {xs ys : List Bytes} {x y : Bytes} :
    xs ++ [x] = ys ++ [y] ↔ xs = ys ∧ x = y := by
  constructor
  · intro h
    obtain ⟨hxs, hx⟩ := List.append_inj' h rfl
    exact ⟨hxs, (List.cons.inj hx).1⟩
  · rintro ⟨rfl, rfl⟩
    rfl

theorem decides_last_quoted {q : Bytes} (hq : ∀ b ∈ q, b ≠ quote) (xs : List Bytes) :
    Decides resets word (quote :: (q ++ [quote])) a b (xs ++ [q]) (a.toList ++ b.toList = xs) :=
  ⟨_, outcome_quoted_end hq, by rw [snoc_eq_snoc, and_iff_left rfl]⟩

theorem decides_last_word {w : Bytes} {xs : List Bytes} (hne : w ≠ [])
    (hw : ∀ b ∈ w, unquoted b = true) (hlength : (a.toList ++ b.toList).length ≤ xs.length) :
    Decides resets word (w.dropWhile isSpace) a b (xs ++ [w])
      (a.toList ++ b.toList = xs ∧ ∀ b ∈ w, isSpace b = false) := by
  obtain ⟨result, houtcome, hcut⟩ := outcome_cut resets word a b (unquoted_dropWhile hw)
    (stops_dropWhile w)
  refine ⟨result, houtcome, ?_⟩
  have hle : (w.dropWhile isSpace).length ≤ w.length := (List.dropWhile_suffix isSpace).length_le
  have hself (h : ∀ b ∈ w, isSpace b = false) : w.dropWhile isSpace = w :=
    dropWhile_space.2 (stops_of_unbroken h)
  generalize w.dropWhile isSpace = t at hcut hle hself
  cases hcut with
  | nothing ht =>
    refine iff_of_false (fun h => ?_) fun h => hne (by rw [← hself h.2, ht])
    have hlengths := congrArg List.length h
    rw [List.length_append, List.length_append, List.length_singleton] at hlengths
    rw [List.length_append] at hlength
    omega
  | whole ht =>
    rw [snoc_eq_snoc]
    refine and_congr_right fun _ => ⟨?_, hself⟩
    rintro rfl
    exact ht
  | @front u c ht hc =>
    refine iff_of_false (fun h => ?_) fun h => ?_
    · rw [snoc_eq_snoc] at h
      rw [ht, List.length_append, List.length_singleton, h.2] at hle
      omega
    · have hfalse := h.2 c (by rw [← hself h.2, ht]; simp)
      rw [hc] at hfalse
      cases hfalse
  | @both u v c ht hu hc hv =>
    refine iff_of_false (fun h => ?_) fun h => ?_
    · have hsplit : (kept resets a).toList ++ [u, v] = ((kept resets a).toList ++ [u]) ++ [v] := by
        simp
      rw [hsplit, snoc_eq_snoc] at h
      rw [ht, List.length_append, List.length_cons, h.2] at hle
      omega
    · have hfalse := h.2 c (by rw [← hself h.2, ht]; simp)
      rw [hc] at hfalse
      cases hfalse

theorem unquoted_words {x w : Bytes} (hx : ∀ b ∈ x, unquoted b = true)
    (hw : ∀ b ∈ w, unquoted b = true) : ∀ b ∈ x ++ space :: w, unquoted b = true := by
  intro b hb
  rcases List.mem_append.mp hb with hb | hb
  · exact hx b hb
  · rcases List.mem_cons.mp hb with rfl | hb
    · rfl
    · exact hw b hb

/-- Two last words are found if the first starts with none and the second has no white space. -/
theorem decides_last_words {x w : Bytes} (hx : x ≠ []) (hxs : ∀ b ∈ x, unquoted b = true)
    (hne : w ≠ []) (hw : ∀ b ∈ w, unquoted b = true) (ha : kept resets a = a) :
    Decides resets word ((x ++ space :: w).dropWhile isSpace) a none (a.toList ++ [x, w])
      (Stops isSpace x ∧ ∀ b ∈ w, isSpace b = false) := by
  have hall := unquoted_words hxs hw
  obtain ⟨result, houtcome, hcut⟩ := outcome_cut resets word a none
    (unquoted_dropWhile hall) (stops_dropWhile (x ++ space :: w))
  refine ⟨result, houtcome, ?_⟩
  have hself (h : Stops isSpace x) : (x ++ space :: w).dropWhile isSpace = x ++ space :: w := by
    refine dropWhile_space.2 ?_
    obtain ⟨b, x, rfl⟩ := List.exists_cons_of_ne_nil hx
    exact h
  generalize (x ++ space :: w).dropWhile isSpace = t at hcut hself
  cases hcut with
  | nothing ht =>
    refine iff_of_false (fun h => ?_) fun h => ?_
    · have hlengths := congrArg List.length h
      simp at hlengths
    · have hnil := (hself h.1).symm.trans ht
      simp at hnil
  | whole ht =>
    refine iff_of_false (fun h => ?_) fun h => ?_
    · have hlengths := congrArg List.length h
      simp at hlengths
    · have hfalse := ht space (by rw [hself h.1]; simp)
      cases hfalse
  | @front u c ht hc =>
    refine iff_of_false (fun h => ?_) fun h => ?_
    · have hlengths := congrArg List.length h
      simp [ha] at hlengths
    · have hlast := last_space_unique (v := []) hc rfl (by simp) h.2 (ht.symm.trans (hself h.1))
      exact hne hlast.2.symm
  | @both u v c ht hu hc hv =>
    rw [ha, List.append_cancel_left_eq, List.cons.injEq, List.cons.injEq, and_iff_left rfl]
    constructor
    · rintro ⟨rfl, rfl⟩
      exact ⟨hu, hv⟩
    · intro h
      exact last_space_unique hc rfl hv h.2 (ht.symm.trans (hself h.1))

theorem decides_quoted {q rest : Bytes} (hq : ∀ b ∈ q, b ≠ quote)
    (h : Decides resets word (rest.dropWhile isSpace) (some q) (kept resets b) expected holds) :
    Decides resets word (quote :: (q ++ quote :: (space :: rest))) a b expected holds := by
  obtain ⟨result, houtcome, hresult⟩ := h
  refine ⟨result, ?_, hresult⟩
  have hsplit : space :: rest = (space :: rest.takeWhile isSpace) ++ rest.dropWhile isSpace := by
    rw [List.cons_append, List.takeWhile_append_dropWhile]
  rw [hsplit]
  refine outcome_quoted hq ?_ (List.cons_ne_nil _ _) (stops_dropWhile rest) houtcome
  rw [List.forall_mem_cons]
  exact ⟨rfl, fun b hb => List.mem_takeWhile_imp hb⟩

theorem decides_words {x rest : Bytes} (hxs : ∀ b ∈ x, unquoted b = true)
    (hnil : x.dropWhile isSpace = [] → Decides resets word (quote :: rest) a b expected holds)
    (hne : x.dropWhile isSpace ≠ [] → Decides resets word (quote :: rest) (kept resets a)
      (some (x.dropWhile isSpace)) expected holds) :
    Decides resets word ((x ++ space :: quote :: rest).dropWhile isSpace) a b expected holds := by
  by_cases hx : x.dropWhile isSpace = []
  · have hall : ∀ b ∈ x, isSpace b = true := by
      rwa [← List.dropWhile_eq_nil_iff]
    have hdrop : (x ++ space :: quote :: rest).dropWhile isSpace = quote :: rest := by
      rw [List.dropWhile_append_of_pos hall]
      rfl
    rw [hdrop]
    exact hnil hx
  · have hdrop : (x ++ space :: quote :: rest).dropWhile isSpace =
        x.dropWhile isSpace ++ space :: ([] ++ quote :: rest) := by
      rw [List.dropWhile_append, if_neg (by simpa using hx)]
      rfl
    obtain ⟨result, houtcome, hresult⟩ := hne hx
    refine ⟨result, ?_, hresult⟩
    rw [hdrop]
    exact outcome_bare (unquoted_dropWhile hxs) hx rfl (by simp) (stops_quote rest)
      (stops_space_quote rest) houtcome

end Decides

section Line

variable {resets : Bool} {word : Bytes}

/-- A command is split off, and its parameters are what the match behind it finds. -/
theorem parse_line {line : Bytes} {r : Bytes × List Bytes} (hne : word ≠ [])
    (hword : ∀ b ∈ word, isAlpha b = true) (hline : Stops isAlpha line)
    (h : outcome resets word (line.dropWhile isSpace) none none = some r) :
    parse resets (slash :: (word ++ line)) = some r := by
  rw [outcome] at h
  obtain ⟨g', hg', hr⟩ := Option.bind_eq_some_iff.mp h
  have hheld : Function.update (fun _ => none) 1 (some word) = held word none none := by
    funext n
    by_cases hn : n = 1
    · subst hn
      rfl
    · simp [held, hn]
  have hspaces : (Pattern.chars isSpace 0 none).run (fun rest g => tail resets rest g) line
      (Function.update (fun _ => none) 1 (some word)) = some g' := by
    have hblanks : ∀ b ∈ line.takeWhile isSpace, isSpace b = true := fun b hb =>
      List.mem_takeWhile_imp hb
    rw [hheld]
    have hrun : (Pattern.chars isSpace 0 none).run (fun rest g => tail resets rest g)
        (line.takeWhile isSpace ++ line.dropWhile isSpace) (held word none none) = some g' :=
      Pattern.run_chars_first hblanks (stops_dropWhile line) (Nat.zero_le _) hg'
    rwa [List.takeWhile_append_dropWhile] at hrun
  have hcommand : (Pattern.group 1 (.chars isAlpha 1 none)).run
      (fun rest g => (Pattern.chars isSpace 0 none).run (fun rest g => tail resets rest g) rest g)
      (word ++ line) (fun _ => none) = some g' :=
    Pattern.run_group_first hword hline (List.length_pos_iff.mpr hne) hspaces
  have hmatch : linePattern resets Pattern.atEnd (slash :: (word ++ line)) (fun _ => none) =
      some g' := by
    have hslash : ([slash] : Bytes).isPrefixOf (slash :: (word ++ line)) = true := by simp
    show (if ([slash] : Bytes).isPrefixOf (slash :: (word ++ line)) then _ else none) = _
    rw [if_pos hslash]
    exact hcommand
  rw [parse, hmatch]
  exact hr

/-- The groups in a match: one of the last two, and, if a round clears the groups, one of the
first two. -/
theorem linePattern_keeps : (linePattern resets : Matcher UInt8 (Groups UInt8)).Keeps
    (fun g => g = fun _ => none)
    (fun g => (g 4 = none ∨ g 5 = none) ∧ (resets = true → g 2 = none ∨ g 3 = none)) := by
  have hround : (parameterItem : Matcher UInt8 (Groups UInt8)).Keeps
      (fun g => g 4 = none ∧ g 5 = none ∧ (resets = true → g 2 = none ∧ g 3 = none))
      (fun g => g 4 = none ∧ g 5 = none ∧ (resets = true → g 2 = none ∨ g 3 = none)) := by
    refine Matcher.Keeps.both (Matcher.Keeps.either ?_ ?_) (Matcher.keeps_run _ ?_)
    · refine Matcher.Keeps.imp (P := fun g => g 4 = none ∧ g 5 = none ∧ (resets = true → g 3 = none))
        (Matcher.keeps_run _ ?_) (fun g hg => ⟨hg.1, hg.2.1, fun h => (hg.2.2 h).2⟩)
        fun g hg => ⟨hg.1, hg.2.1, fun h => Or.inr (hg.2.2 h)⟩
      intro g n text hn hg
      obtain rfl : n = 2 := by simpa [quotedText, Pattern.groups] using hn
      simpa using hg
    · refine Matcher.Keeps.imp (P := fun g => g 4 = none ∧ g 5 = none ∧ (resets = true → g 2 = none))
        (Matcher.keeps_run _ ?_) (fun g hg => ⟨hg.1, hg.2.1, fun h => (hg.2.2 h).1⟩)
        fun g hg => ⟨hg.1, hg.2.1, fun h => Or.inl (hg.2.2 h)⟩
      intro g n text hn hg
      obtain rfl : n = 3 := by simpa [bareText, Pattern.groups] using hn
      simpa using hg
    · intro g n text hn
      simp [Pattern.groups] at hn
  refine Matcher.Keeps.both
    (Q := fun g => g 4 = none ∧ g 5 = none ∧ (resets = true → g 2 = none ∨ g 3 = none)) ?_
    (Matcher.Keeps.both (Matcher.Keeps.star ?_ hround) (Matcher.Keeps.maybe
      (Matcher.Keeps.either ?_ ?_) fun g hg => ⟨Or.inl hg.1, hg.2.2⟩))
  · refine Matcher.Keeps.imp (Matcher.keeps_run _ ?_)
      (fun g hg => by rw [hg]; exact ⟨rfl, rfl, fun _ => Or.inl rfl⟩) fun g hg => hg
    intro g n text hn hg
    obtain rfl : n = 1 := by simpa [Pattern.groups] using hn
    simpa using hg
  · rintro g ⟨hfour, hfive, -⟩
    have hother (n : ℕ) (hn : g n = none) : cleared resets g n = none := by
      rw [cleared, hn, ite_self]
    refine ⟨hother 4 hfour, hother 5 hfive, fun h => ?_⟩
    subst h
    exact ⟨rfl, rfl⟩
  · refine Matcher.Keeps.imp (P := fun g => g 5 = none ∧ (resets = true → g 2 = none ∨ g 3 = none))
      (Matcher.keeps_run _ ?_) (fun g hg => hg.2) fun g hg => ⟨Or.inr hg.1, hg.2⟩
    intro g n text hn hg
    obtain rfl : n = 4 := by simpa [quotedText, Pattern.groups] using hn
    simpa using hg
  · refine Matcher.Keeps.imp (P := fun g => g 4 = none ∧ (resets = true → g 2 = none ∨ g 3 = none))
      (Matcher.keeps_run _ ?_) (fun g hg => ⟨hg.1, hg.2.2⟩) fun g hg => ⟨Or.inl hg.1, hg.2⟩
    intro g n text hn hg
    obtain rfl : n = 5 := by simpa [bareText, Pattern.groups] using hn
    simpa using hg

theorem parse_length {s command : Bytes} {texts : List Bytes}
    (h : parse resets s = some (command, texts)) : texts.length ≤ if resets then 2 else 3 := by
  obtain ⟨g, hg, hr⟩ := Option.bind_eq_some_iff.mp h
  obtain ⟨rest, g', ⟨hlast, hround⟩, hend⟩ := linePattern_keeps _ _ _ _ rfl hg
  obtain ⟨word, -, hword⟩ := Option.bind_eq_some_iff.mp hr
  rw [Pattern.atEnd] at hend
  split_ifs at hend with hrest
  cases hend
  obtain rfl : parameterTexts g = texts := (Prod.ext_iff.mp (Option.some.inj hword)).2
  have hcount (n : ℕ) : ([n].filterMap g).length = if g n = none then 0 else 1 := by
    cases hn : g n <;> simp [hn]
  have hlength : (parameterTexts g).length = ((if g 2 = none then 0 else 1) +
      (if g 3 = none then 0 else 1)) + ((if g 4 = none then 0 else 1) +
        if g 5 = none then 0 else 1) := by
    rw [← hcount, ← hcount, ← hcount, ← hcount, ← List.length_append, ← List.length_append,
      ← List.length_append, ← List.filterMap_append, ← List.filterMap_append,
      ← List.filterMap_append]
    rfl
  have hlast' : (if g 4 = none then 0 else 1) + (if g 5 = none then 0 else 1) ≤ 1 := by
    rcases hlast with h4 | h5
    · rw [if_pos h4]
      split_ifs <;> omega
    · rw [if_pos h5]
      split_ifs <;> omega
  rw [hlength]
  cases resets with
  | false =>
    rw [if_neg Bool.false_ne_true]
    split_ifs at hlast' ⊢ <;> omega
  | true =>
    rw [if_pos rfl]
    rcases hround rfl with h2 | h3
    · rw [if_pos h2]
      split_ifs at hlast' ⊢ <;> omega
    · rw [if_pos h3]
      split_ifs at hlast' ⊢ <;> omega

theorem Decides.parse {parameters : List Parameter} {holds : Prop} (hne : word ≠ [])
    (hword : ∀ b ∈ word, isAlpha b = true)
    (h : Decides resets word ((parametersText parameters).dropWhile isSpace) none none
      (parameters.map Parameter.content) holds) :
    (∃ command, parse resets (slash :: (word ++ parametersText parameters)) =
      some (command, parameters.map Parameter.content)) ↔ holds := by
  obtain ⟨result, houtcome, hresult⟩ := h
  have hline : Stops isAlpha (parametersText parameters) := by
    cases parameters with
    | nil => simp [Stops, parametersText]
    | cons parameter parameters =>
      intro b hb
      cases hb
      rfl
  rw [parse_line hne hword hline houtcome, ← hresult]
  simp

theorem unquoted_of_plain {w : Bytes} (hw : ∀ b ∈ w, b ≠ space ∧ b ≠ quote) :
    ∀ b ∈ w, unquoted b = true := fun b hb => unquoted_iff.2 (hw b hb).2

theorem decides_last {a b : Option Bytes} (xs : List Bytes) (last : Parameter)
    (hlength : (a.toList ++ b.toList).length ≤ xs.length) :
    Decides resets word (last.written.dropWhile isSpace) a b (xs ++ [last.content])
      (a.toList ++ b.toList = xs ∧ last.Unbroken) := by
  cases last with
  | word w hne hw => exact decides_last_word hne (unquoted_of_plain hw) hlength
  | quoted q hq => exact (decides_last_quoted hq xs).congr (and_iff_left trivial).symm

theorem dropWhile_eq_nil {w : Bytes} (hne : w ≠ []) (h : w.dropWhile isSpace = []) :
    ¬ Stops isSpace w := by
  rw [← dropWhile_space, h]
  exact hne.symm

theorem parametersText_one (last : Parameter) :
    parametersText [last] = space :: last.written := by
  simp [parametersText]

theorem parametersText_two (first last : Parameter) :
    parametersText [first, last] = space :: (first.written ++ space :: last.written) := by
  simp [parametersText]

theorem parametersText_three (first second last : Parameter) :
    parametersText [first, second, last] =
      space :: (first.written ++ space :: (second.written ++ space :: last.written)) := by
  simp [parametersText]

theorem written_quoted {q : Bytes} (hq : ∀ b ∈ q, b ≠ quote) (rest : Bytes) :
    (Parameter.quoted q hq).written ++ rest = quote :: (q ++ quote :: rest) := by
  simp [Parameter.written]

theorem decides_two (first last : Parameter) :
    Decides resets word ((first.written ++ space :: last.written).dropWhile isSpace) none none
      [first.content, last.content] (first.Starts ∧ last.Unbroken) := by
  cases first with
  | quoted q hq =>
    rw [written_quoted]
    refine (decides_quoted hq (decides_last [q] last ?_)).congr ?_
    · cases resets <;> exact le_rfl
    · cases resets <;> simp [kept, Parameter.Starts]
  | word w hne hw =>
    cases last with
    | word w' hne' hw' =>
      exact decides_last_words hne (unquoted_of_plain hw) hne' (unquoted_of_plain hw')
        (by cases resets <;> rfl)
    | quoted q hq =>
      refine decides_words (unquoted_of_plain hw) (fun hnil => ?_) fun hdrop => ?_
      · refine (decides_last_quoted hq [w]).congr (iff_of_false (by simp) fun h => ?_)
        exact dropWhile_eq_nil hne hnil h.1
      · refine (decides_last_quoted hq [w]).congr ?_
        have hkept : kept resets none = none := by cases resets <;> rfl
        simp only [hkept, Option.toList_none, Option.toList_some, List.nil_append, List.cons.injEq,
          and_true, Parameter.Starts, Parameter.Unbroken]
        exact dropWhile_space

theorem decides_too_few {line x y z : Bytes} {holds : Prop} (hline : ∀ b ∈ line, unquoted b = true)
    (hfalse : ¬ holds) :
    Decides resets word (line.dropWhile isSpace) none none [x, y, z] holds := by
  obtain ⟨result, houtcome, hcut⟩ := outcome_cut resets word none none (unquoted_dropWhile hline)
    (stops_dropWhile line)
  refine ⟨result, houtcome, iff_of_false (fun h => ?_) hfalse⟩
  have hkept : kept resets none = none := by cases resets <;> rfl
  have hlengths := congrArg List.length h
  cases hcut with
  | nothing ht => simp at hlengths
  | whole ht => simp at hlengths
  | front ht hc => simp [hkept] at hlengths
  | both ht hu hc hv => simp [hkept] at hlengths

theorem decides_three (first second last : Parameter) :
    Decides false word
      ((first.written ++ space :: (second.written ++ space :: last.written)).dropWhile isSpace)
      none none [first.content, second.content, last.content]
      (Splits false [first, second, last]) := by
  have hkept (a : Option Bytes) : kept false a = a := rfl
  cases first with
  | quoted q hq =>
    rw [written_quoted]
    refine decides_quoted hq ?_
    cases second with
    | quoted q' hq' =>
      rw [written_quoted]
      refine (decides_quoted hq' (decides_last [q, q'] last (by simp [hkept]))).congr ?_
      simp [hkept, Splits, Parameter.IsQuoted]
    | word w hne hw =>
      cases last with
      | word w' hne' hw' =>
        refine (decides_last_words hne (unquoted_of_plain hw) hne' (unquoted_of_plain hw')
          (hkept (some q))).congr ?_
        simp [Splits, Parameter.IsQuoted, Parameter.Starts, Parameter.Unbroken]
      | quoted q' hq' =>
        refine decides_words (unquoted_of_plain hw) (fun hnil => ?_) fun hdrop => ?_
        · refine (decides_last_quoted hq' [q, w]).congr (iff_of_false (by simp [hkept]) fun h => ?_)
          exact dropWhile_eq_nil hne hnil h.2.2.1
        · refine (decides_last_quoted hq' [q, w]).congr ?_
          simp only [hkept, Option.toList_some, List.cons_append, List.nil_append, List.cons.injEq,
            true_and, and_true, Splits, Parameter.IsQuoted, Parameter.Starts, Parameter.Unbroken,
            not_false_eq_true, not_true_eq_false, false_and, or_false]
          exact dropWhile_space
  | word w hne hw =>
    cases second with
    | quoted q hq =>
      rw [written_quoted]
      refine decides_words (unquoted_of_plain hw) (fun hnil => ?_) fun hdrop => ?_
      · refine (decides_quoted hq (decides_last [w, q] last (by simp [hkept]))).congr
          (iff_of_false (by simp [hkept]) fun h => ?_)
        exact dropWhile_eq_nil hne hnil h.2.1
      · refine (decides_quoted hq (decides_last [w, q] last (by simp [hkept]))).congr ?_
        simp only [hkept, Option.toList_some, List.cons_append, List.nil_append, List.cons.injEq,
          and_true, Splits, Parameter.IsQuoted, Parameter.Starts, Parameter.Unbroken,
          Parameter.content, true_and, not_false_eq_true, not_true_eq_false, and_false, false_or]
        constructor
        · rintro ⟨⟨rfl, hstarts⟩, hlast⟩
          exact ⟨dropWhile_space.1 hstarts, hlast, rfl⟩
        · rintro ⟨hstarts, hlast, rfl⟩
          exact ⟨⟨rfl, dropWhile_space.2 hstarts⟩, hlast⟩
    | word w' hne' hw' =>
      have hsplits : ¬ Splits false [.word w hne hw, .word w' hne' hw', last] := by
        simp [Splits, Parameter.IsQuoted]
      have hwords : ∀ b ∈ w ++ space :: w', unquoted b = true :=
        unquoted_words (unquoted_of_plain hw) (unquoted_of_plain hw')
      have hjoin (rest : Bytes) : w ++ space :: (w' ++ rest) = (w ++ space :: w') ++ rest := by simp
      simp only [Parameter.written, Parameter.content, hjoin]
      cases last with
      | word w'' hne'' hw'' =>
        exact decides_too_few (unquoted_words hwords (unquoted_of_plain hw'')) hsplits
      | quoted q hq =>
        refine decides_words hwords (fun hnil => ?_) fun hdrop => ?_
        · exact (decides_last_quoted hq [w, w']).congr (iff_of_false (by simp) hsplits)
        · exact (decides_last_quoted hq [w, w']).congr (iff_of_false (by simp [hkept]) hsplits)

/-- A line is split into its parameters exactly under the condition. -/
theorem splits_iff (resets : Bool) (hne : word ≠ []) (hword : ∀ b ∈ word, isAlpha b = true)
    (parameters : List Parameter) :
    (∃ command, parse resets (slash :: (word ++ parametersText parameters)) =
      some (command, parameters.map Parameter.content)) ↔ Splits resets parameters := by
  have hlong (h : (if resets then 2 else 3) < parameters.length) (hsplits : ¬ Splits resets parameters) :
      (∃ command, parse resets (slash :: (word ++ parametersText parameters)) =
        some (command, parameters.map Parameter.content)) ↔ Splits resets parameters := by
    refine iff_of_false ?_ hsplits
    rintro ⟨command, hparse⟩
    have hlength := parse_length hparse
    rw [List.length_map] at hlength
    omega
  match parameters, hlong with
  | [], _ => exact Decides.parse hne hword ⟨[], outcome_nil, iff_of_true rfl trivial⟩
  | [last], _ =>
    refine Decides.parse hne hword ?_
    rw [parametersText_one]
    exact (decides_last [] last le_rfl).congr (and_iff_right rfl)
  | [first, last], _ =>
    refine Decides.parse hne hword ?_
    rw [parametersText_two]
    exact decides_two first last
  | [first, second, last], hlong =>
    cases resets with
    | true => exact hlong (by simp) fun h => Bool.noConfusion h.1
    | false =>
      refine Decides.parse hne hword ?_
      rw [parametersText_three]
      exact decides_three first second last
  | first :: second :: third :: fourth :: rest, hlong =>
    refine hlong ?_ id
    cases resets <;> simp

end Line

def channel : Parameter := .word [0x23, 0x61] (by simp) (by simp [space, quote])

def key : Parameter := .word [0x6B, 0x65, 0x79] (by simp) (by simp [space, quote])

/-- A channel and its key are found. -/
theorem parse_channel_key : ∃ command,
    parse true (slash :: ([0x6A] ++ parametersText [channel, key])) =
      some (command, [channel, key].map Parameter.content) := by
  refine (splits_iff true (by simp) (by simp [isAlpha]) [channel, key]).mpr ⟨?_, ?_⟩
  · simp [Parameter.Starts, channel, Stops, isSpace]
  · simp [Parameter.Unbroken, key, isSpace]

/-- Of three words the first two are one parameter. -/
theorem parse_three_words :
    [true, false].map (fun resets =>
        parse resets (slash :: (text "join" ++ parametersText [channel, key, channel]))) =
        List.replicate 2 (some (text "join", [text "#a key", text "#a"])) ∧
      [text "#a key", text "#a"] ≠ [channel, key, channel].map Parameter.content := by
  decide +kernel

end ACENetwork.IRC.CommandLine
