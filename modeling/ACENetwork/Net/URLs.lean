import ACENetwork.BitTorrent.Common
import ACENetwork.Library.Backtracking
import ACENetwork.Library.Text

/-!
# The parts of a URL

`Net_Common_Tools::URLToHostName` and `URLToProtocol` match one expression with three
groups. The group of the port lacks the colon, so a host with its port is not a
part of the URL, and the assertion on the scheme fails for a text that matches without
one.
-/
namespace ACENetwork.Net.URLs
open Library BitTorrent

def isSeparator (b : UInt8) : Bool := b == '/'.toUInt8 || b == ':'.toUInt8

/-- `[^\/\:]`. -/
def isHost (b : UInt8) : Bool := !isSeparator b

/-- `.`, which matches no line end. -/
def isAny (b : UInt8) : Bool := !(b == '\n'.toUInt8 || b == '\r'.toUInt8)

/-- `(?:.+)?` -/
def tailPattern : Pattern UInt8 := .opt (.chars isAny 1 none)

/-- `(?:\:([[:digit:]]{1,5}))?` -/
def portPattern : Pattern UInt8 := .opt (.seq (.word (text ":")) (.group 3 (.chars isDigit 1 (some 5))))

/-- `([^\/\:]+)` -/
def hostPattern : Pattern UInt8 := .group 2 (.chars isHost 1 none)

/-- `(?:([[:alpha:]]+)://)?` -/
def schemePattern : Pattern UInt8 := .opt (.seq (.group 1 (.chars isAlpha 1 none)) (.word (text "://")))

/-- `regex_string` of both functions. -/
def urlPattern : Pattern UInt8 :=
  .seq schemePattern (.seq hostPattern (.seq portPattern tailPattern))

def URLToHostName (url : Bytes) (returnProtocol returnPort : Bool) : Except Fault Bytes :=
  match urlPattern.fullMatch url with
  | none => .ok []
  | some groups =>
    match groups 2 with
    | none => .ok []
    | some host =>
      let withPort := if returnPort then host ++ (groups 3).getD [] else host
      if returnProtocol then
        match groups 1 with
        | none => .error .assertion
        | some scheme => .ok (scheme ++ text "://" ++ withPort)
      else .ok withPort

def URLToProtocol (url : Bytes) : Bytes :=
  match urlPattern.fullMatch url with
  | none => []
  | some groups => (groups 1).getD []

def portOf : Bytes → Option Bytes
  | [] => none
  | b :: rest =>
    if b = ':'.toUInt8 then
      match (rest.takeWhile isDigit).take 5 with
      | [] => none
      | digits => some digits
    else none

def setPort (g : Groups UInt8) (s : Bytes) : Groups UInt8 :=
  match portOf s with
  | none => g
  | some digits => Function.update g 3 (some digits)

def hostMatch (g : Groups UInt8) (s : Bytes) : Option (Groups UInt8) :=
  if s.takeWhile isHost ≠ [] ∧ ∀ b ∈ s.dropWhile isHost, isAny b = true then
    some (setPort (Function.update g 2 (some (s.takeWhile isHost))) (s.dropWhile isHost))
  else none

section Matcher

variable {g : Groups UInt8} {s : Bytes}

open Pattern

theorem run_tail : tailPattern.run atEnd s g = if ∀ b ∈ s, isAny b = true then some g else none := by
  obtain ⟨front, rest, rfl, hfront, hrest⟩ := exists_run isAny s
  have hshort (n : ℕ) (hn : n < front.length) : atEnd (front.drop n ++ rest) g = none := by
    have hne : front.drop n ++ rest ≠ [] := by simp [hn]
    exact if_neg hne
  rw [tailPattern, run, run_chars hfront hrest fun n _ => hshort n]
  cases rest with
  | nil =>
    cases front with
    | nil => simp [atEnd]
    | cons b front => simpa [atEnd] using hfront
  | cons b rest =>
    have hb : isAny b = false := hrest b rfl
    have hline : ¬ ∀ b' ∈ front ++ b :: rest, isAny b' = true := fun h =>
      absurd (h b (by simp)) (by simp [hb])
    simp only [hline, if_false]
    simp [atEnd]

theorem isAny_of_isDigit {b : UInt8} (h : isDigit b = true) : isAny b = true := by
  revert b
  decide +kernel

/-- What is left behind some of the digits matches the tail exactly if everything does. -/
theorem isAny_drop {rest : Bytes} {n : ℕ} (hn : n ≤ (rest.takeWhile isDigit).length) :
    (∀ b ∈ rest.drop n, isAny b = true) ↔ ∀ b ∈ rest, isAny b = true := by
  constructor
  · intro h b hb
    rw [← List.take_append_drop n rest] at hb
    rcases List.mem_append.mp hb with htake | hdrop
    · refine isAny_of_isDigit (List.mem_takeWhile_imp (l := rest) ?_)
      have hfront : rest.take n <+: rest.takeWhile isDigit :=
        List.prefix_of_prefix_length_le (List.take_prefix n rest) (List.takeWhile_prefix _)
          ((List.length_take_le n rest).trans hn)
      exact hfront.subset htake
    · exact h b hdrop
  · intro h b hb
    exact h b (List.mem_of_mem_drop hb)

theorem run_digits {rest : Bytes} :
    (group 3 (chars isDigit 1 (some 5))).run (fun rest g => tailPattern.run atEnd rest g) rest g =
      if (rest.takeWhile isDigit).take 5 ≠ [] ∧ ∀ b ∈ rest, isAny b = true then
        some (Function.update g 3 (some ((rest.takeWhile isDigit).take 5)))
      else none := by
  have hcount : min 5 (rest.takeWhile isDigit).length ≤ (rest.takeWhile isDigit).length :=
    min_le_right _ _
  simp only [run, run_tail, Option.elim_some, min_comm _ 5]
  by_cases hany : ∀ b ∈ rest, isAny b = true
  · by_cases hnone : (rest.takeWhile isDigit).take 5 = []
    · have hzero : min 5 (rest.takeWhile isDigit).length = 0 := by
        rw [← List.length_take, hnone, List.length_nil]
      rw [hzero, findSome_descending_none fun n h h' => absurd (h.trans h') (by decide)]
      simp [hnone]
    · have hpos : 1 ≤ min 5 (rest.takeWhile isDigit).length := by
        rw [← List.length_take]
        exact List.length_pos_iff.mpr hnone
      have htake : rest.take (min 5 (rest.takeWhile isDigit).length) =
          (rest.takeWhile isDigit).take 5 := by
        rw [← List.length_take]
        exact (List.prefix_iff_eq_take.mp
          ((List.take_prefix 5 _).trans (List.takeWhile_prefix isDigit))).symm
      have hle : min 5 (rest.takeWhile isDigit).length ≤ rest.length :=
        hcount.trans (List.takeWhile_prefix _).length_le
      rw [findSome_descending_first hpos (if_pos ((isAny_drop hcount).mpr hany)),
        if_pos ⟨hnone, hany⟩, List.length_drop, Nat.sub_sub_self hle, htake]
  · rw [if_neg fun h => hany h.2]
    exact findSome_descending_none fun n _ hn =>
      if_neg fun h => hany ((isAny_drop (hn.trans hcount)).mp h)

theorem run_port : (seq portPattern tailPattern).run atEnd s g =
    if ∀ b ∈ s, isAny b = true then some (setPort g s) else none := by
  have hcolon : text ":" = [':'.toUInt8] := rfl
  rw [run, portPattern, run, run_tail]
  cases s with
  | nil => simp [run, hcolon, setPort, portOf]
  | cons b rest =>
    rw [run, run, hcolon]
    by_cases hb : b = ':'.toUInt8
    · subst hb
      have hany : isAny ':'.toUInt8 = true := by decide
      simp only [List.isPrefixOf, BEq.rfl, Bool.and_true, if_true, List.length_singleton,
        List.drop_succ_cons, List.drop_zero, run_digits, List.forall_mem_cons, hany, true_and]
      by_cases hrest : ∀ b ∈ rest, isAny b = true
      · simp only [eq_true hrest, and_true, if_true]
        cases hdigits : (rest.takeWhile isDigit).take 5 with
        | nil => simp [setPort, portOf, hdigits]
        | cons d digits => simp [setPort, portOf, hdigits]
      · simp [hrest]
    · have hfront : [':'.toUInt8].isPrefixOf (b :: rest) = false := by
        simpa [List.isPrefixOf] using fun h => hb h.symm
      simp [hfront, setPort, portOf, hb]

theorem run_host : (seq hostPattern (seq portPattern tailPattern)).run atEnd s g = hostMatch g s := by
  obtain ⟨front, rest, rfl, hfront, hrest⟩ := exists_run isHost s
  rw [hostMatch, takeWhile_run hfront hrest, dropWhile_run hfront hrest, run, hostPattern]
  by_cases hany : ∀ b ∈ rest, isAny b = true
  · by_cases hfrontNil : front = []
    · subst hfrontNil
      rw [run_group hfront hrest (by simp)]
      simp
    · rw [if_pos ⟨hfrontNil, hany⟩]
      refine run_group_first hfront hrest (List.length_pos_iff.mpr hfrontNil) ?_
      rw [run_port, if_pos hany]
  · rw [if_neg fun h => hany h.2, run_group hfront hrest]
    · rw [run_port, if_neg hany, ite_self]
    · intro m g' _ _
      rw [run_port]
      exact if_neg fun h => hany fun b hb => h b (List.mem_append_right _ hb)

def HasScheme (s : Bytes) : Prop :=
  s.takeWhile isAlpha ≠ [] ∧ (text "://").isPrefixOf (s.dropWhile isAlpha) = true ∧
    ((s.dropWhile isAlpha).drop 3).takeWhile isHost ≠ []

theorem stops_scheme {s : Bytes} : Stops isAlpha (text "://" ++ s) := by
  rintro b ⟨⟩
  decide

theorem fullMatch_eq : urlPattern.fullMatch s =
    ((if s.takeWhile isAlpha ≠ [] ∧ (text "://").isPrefixOf (s.dropWhile isAlpha) = true then
        hostMatch (Function.update (fun _ => none) 1 (some (s.takeWhile isAlpha)))
          ((s.dropWhile isAlpha).drop 3)
      else none).or (hostMatch (fun _ => none) s)) := by
  obtain ⟨letters, rest, rfl, hletters, hrest⟩ := exists_run isAlpha s
  have hshort (m : ℕ) (hm : m < letters.length) :
      (text "://").isPrefixOf (letters.drop m ++ rest) = false := by
    obtain ⟨b, behind, hb⟩ := List.exists_cons_of_ne_nil
      (List.length_pos_iff.mp (by simpa using hm) : letters.drop m ≠ [])
    have halpha : isAlpha b = true :=
      hletters b (List.mem_of_mem_drop (hb ▸ List.mem_cons_self))
    rw [hb, Bool.eq_false_iff]
    intro hfront
    have hcolon : b = ':'.toUInt8 := by
      simp only [text, List.cons_append] at hfront
      exact (List.cons_prefix_cons.mp (List.isPrefixOf_iff_prefix.mp hfront)).1.symm
    rw [hcolon] at halpha
    exact absurd halpha (by decide)
  rw [takeWhile_run hletters hrest, dropWhile_run hletters hrest, fullMatch, urlPattern, run,
    schemePattern, run, run, run_group hletters hrest]
  · simp only [run_host]
    rw [run]
    have hlength : (text "://").length = 3 := rfl
    by_cases hnil : letters = []
    · simp [hnil]
    · have hpos : 1 ≤ letters.length := List.length_pos_iff.mpr hnil
      simp [hnil, hpos, hlength]
  · intro m g' _ hm
    rw [run, hshort m hm]
    rfl

theorem isHost_of_isAlpha {b : UInt8} (h : isAlpha b = true) : isHost b = true := by
  revert b
  decide +kernel

theorem stops_host {s : Bytes} : Stops isHost (text "://" ++ s) := by
  rintro b ⟨⟩
  decide

theorem mark_eq : text "://" = [':'.toUInt8, '/'.toUInt8, '/'.toUInt8] := rfl

theorem isAny_mark : ∀ b ∈ text "://", isAny b = true := by
  decide +kernel

section Scheme

variable {letters r : Bytes}

theorem fullMatch_scheme (hletters : ∀ b ∈ letters, isAlpha b = true) (hnil : letters ≠ []) :
    urlPattern.fullMatch (letters ++ (text "://" ++ r)) =
      (hostMatch (Function.update (fun _ => none) 1 (some letters)) r).or
        (hostMatch (fun _ => none) (letters ++ (text "://" ++ r))) := by
  have hfront : (text "://").isPrefixOf (text "://" ++ r) = true :=
    List.isPrefixOf_iff_prefix.mpr (List.prefix_append _ _)
  have hdrop : (text "://" ++ r).drop 3 = r := rfl
  rw [fullMatch_eq, takeWhile_run hletters stops_scheme, dropWhile_run hletters stops_scheme,
    if_pos ⟨hnil, hfront⟩, hdrop]

theorem hostMatch_scheme (hletters : ∀ b ∈ letters, isAlpha b = true) (hnil : letters ≠ []) :
    hostMatch (fun _ => none) (letters ++ (text "://" ++ r)) =
      if ∀ b ∈ r, isAny b = true then some (Function.update (fun _ => none) 2 (some letters))
      else none := by
  have hhost : ∀ b ∈ letters, isHost b = true := fun b hb => isHost_of_isAlpha (hletters b hb)
  have hport : portOf (text "://" ++ r) = none := rfl
  have hline : (∀ b ∈ text "://" ++ r, isAny b = true) ↔ ∀ b ∈ r, isAny b = true := by
    rw [List.forall_mem_append]
    exact and_iff_right isAny_mark
  simp only [hostMatch, takeWhile_run hhost stops_host, dropWhile_run hhost stops_host, hline,
    setPort, hport, ne_eq, hnil, not_false_eq_true, true_and]

end Scheme

theorem hostMatch_groups {g groups : Groups UInt8} (h : hostMatch g s = some groups) :
    groups 1 = g 1 ∧ groups 2 = some (s.takeWhile isHost) := by
  unfold hostMatch at h
  split_ifs at h
  cases h
  cases hport : portOf (s.dropWhile isHost) with
  | none => simp [setPort, hport]
  | some digits => simp [setPort, hport]

theorem fullMatch_host {g : Groups UInt8} (h : urlPattern.fullMatch s = some g) :
    ∃ host, g 2 = some host := by
  rw [fullMatch_eq] at h
  rcases Option.or_eq_some_iff.mp h with hscheme | ⟨-, hhost⟩
  · split_ifs at hscheme
    exact ⟨_, (hostMatch_groups hscheme).2⟩
  · exact ⟨_, (hostMatch_groups hhost).2⟩

end Matcher

structure Composed where
  scheme : Bytes
  host : Bytes
  port : Option Bytes
  path : Bytes
  letters : ∀ b ∈ scheme, isAlpha b = true
  hostOctets : ∀ b ∈ host, isHost b = true
  digits : ∀ d ∈ port, 1 ≤ d.length ∧ d.length ≤ 5 ∧ ∀ b ∈ d, isDigit b = true
  slash : path = [] ∨ path.head? = some '/'.toUInt8
  line : ∀ b ∈ path, isAny b = true

namespace Composed

variable (c : Composed)

def portText : Bytes := c.port.elim [] fun d => ':'.toUInt8 :: d

def origin : Bytes := c.scheme ++ text "://" ++ c.host

def url : Bytes := c.origin ++ c.portText ++ c.path

/-- Both functions give the parts back. -/
structure Inverts : Prop where
  protocol : URLToProtocol c.url = c.scheme
  host : URLToHostName c.url false false = .ok c.host
  origin : URLToHostName c.url true false = .ok c.origin
  hostPort : URLToHostName c.url false true = .ok (c.host ++ c.portText)
  originPort : URLToHostName c.url true true = .ok (c.origin ++ c.portText)

variable {c}

theorem rest_stops : Stops isHost (c.portText ++ c.path) := by
  unfold portText
  cases c.port with
  | some d =>
    rintro b ⟨⟩
    decide
  | none =>
    intro b hb
    rcases c.slash with hpath | hpath
    · simp [hpath] at hb
    · obtain rfl : '/'.toUInt8 = b := by simpa [hpath] using hb
      decide

theorem rest_line : ∀ b ∈ c.portText ++ c.path, isAny b = true := by
  intro b hb
  rcases List.mem_append.mp hb with hport | hpath
  · unfold portText at hport
    cases hd : c.port with
    | none => simp [hd] at hport
    | some d =>
      rw [hd] at hport
      rcases List.mem_cons.mp hport with rfl | hdigit
      · decide
      · exact isAny_of_isDigit ((c.digits d hd).2.2 b hdigit)
  · exact c.line b hpath

theorem portOf_rest : portOf (c.portText ++ c.path) = c.port := by
  unfold portText
  cases hd : c.port with
  | none =>
    rcases c.slash with hpath | hpath
    · simp [hpath, portOf]
    · obtain ⟨behind, hbehind⟩ := List.head?_eq_some_iff.mp hpath
      have hslash : '/'.toUInt8 ≠ ':'.toUInt8 := by decide
      simp [hbehind, portOf, hslash]
  | some d =>
    obtain ⟨hone, hfive, hall⟩ := c.digits d hd
    have hstops : Stops isDigit c.path := by
      intro b hb
      rcases c.slash with hpath | hpath
      · simp [hpath] at hb
      · obtain rfl : '/'.toUInt8 = b := by simpa [hpath] using hb
        decide
    simp only [Option.elim_some, List.cons_append, portOf, if_true, takeWhile_run hall hstops,
      List.take_of_length_le hfive]
    cases d with
    | nil => simp at hone
    | cons b d => rfl

theorem url_eq : c.url = c.scheme ++ (text "://" ++ (c.host ++ (c.portText ++ c.path))) := by
  simp [url, origin]

theorem fullMatch_url (hscheme : c.scheme ≠ []) (hhost : c.host ≠ []) :
    urlPattern.fullMatch c.url = some (setPort (Function.update
      (Function.update (fun _ => none) 1 (some c.scheme)) 2 (some c.host)) (c.portText ++ c.path)) := by
  have hfront : (text "://").isPrefixOf (text "://" ++ (c.host ++ (c.portText ++ c.path))) = true :=
    List.isPrefixOf_iff_prefix.mpr (List.prefix_append _ _)
  have hdrop : (text "://" ++ (c.host ++ (c.portText ++ c.path))).drop 3 =
      c.host ++ (c.portText ++ c.path) := rfl
  rw [fullMatch_eq, url_eq, takeWhile_run c.letters stops_scheme,
    dropWhile_run c.letters stops_scheme, if_pos ⟨hscheme, hfront⟩, hdrop, hostMatch,
    takeWhile_run c.hostOctets rest_stops, dropWhile_run c.hostOctets rest_stops,
    if_pos ⟨hhost, rest_line⟩, Option.some_or]

theorem fullMatch_noScheme (hscheme : c.scheme = []) : urlPattern.fullMatch c.url = none := by
  rw [fullMatch_eq, url_eq, takeWhile_run c.letters stops_scheme, hscheme,
    if_neg fun h => h.1 rfl, Option.none_or, hostMatch]
  exact if_neg fun h => h.1 rfl

theorem fullMatch_noHost (hscheme : c.scheme ≠ []) (hhost : c.host = []) :
    urlPattern.fullMatch c.url = some (Function.update (fun _ => none) 2 (some c.scheme)) := by
  have hnone : hostMatch (Function.update (fun _ => none) 1 (some c.scheme))
      (c.portText ++ c.path) = none := by
    have htake : (c.portText ++ c.path).takeWhile isHost = [] :=
      @takeWhile_run _ isHost [] _ (by simp) rest_stops
    rw [hostMatch]
    exact if_neg fun h => h.1 htake
  rw [url_eq, hhost, List.nil_append, fullMatch_scheme c.letters hscheme, hnone, Option.none_or,
    hostMatch_scheme c.letters hscheme, if_pos rest_line]

theorem inverts_iff : c.Inverts ↔ c.scheme ≠ [] ∧ c.host ≠ [] ∧ c.port = none := by
  constructor
  · intro h
    have hscheme : c.scheme ≠ [] := by
      intro hscheme
      have horigin := h.origin
      simp only [URLToHostName, fullMatch_noScheme hscheme, Except.ok.injEq, origin, hscheme,
        List.nil_append] at horigin
      rw [mark_eq] at horigin
      cases horigin
    have hhost : c.host ≠ [] := by
      intro hhost
      have h' := h.host
      simp only [URLToHostName, fullMatch_noHost hscheme hhost, hhost] at h'
      exact hscheme (by simpa using h')
    refine ⟨hscheme, hhost, ?_⟩
    have hport := h.hostPort
    simp only [URLToHostName, fullMatch_url hscheme hhost, setPort, portOf_rest] at hport
    cases hd : c.port with
    | none => rfl
    | some d => simp [hd, portText] at hport
  · rintro ⟨hscheme, hhost, hport⟩
    have hmatch := fullMatch_url hscheme hhost
    have htext : c.portText = [] := by rw [portText, hport, Option.elim_none]
    simp only [setPort, portOf_rest, hport] at hmatch
    constructor
    · simp [URLToProtocol, hmatch]
    · simp [URLToHostName, hmatch]
    · simp [URLToHostName, hmatch, origin]
    · simp [URLToHostName, hmatch, htext]
    · simp [URLToHostName, hmatch, htext, origin]

end Composed

/-- A text that matches, but not behind a scheme. -/
def Schemeless (s : Bytes) : Prop :=
  s.takeWhile isHost ≠ [] ∧ (∀ b ∈ s.dropWhile isHost, isAny b = true) ∧ ¬ HasScheme s

theorem hasScheme_iff {s : Bytes} : HasScheme s ↔ ∃ letters r, s = letters ++ (text "://" ++ r) ∧
    letters ≠ [] ∧ (∀ b ∈ letters, isAlpha b = true) ∧ r.takeWhile isHost ≠ [] := by
  constructor
  · rintro ⟨hnil, hfront, hhost⟩
    obtain ⟨r, hr⟩ := List.isPrefixOf_iff_prefix.mp hfront
    have hdrop : (s.dropWhile isAlpha).drop 3 = r := by rw [← hr]; rfl
    refine ⟨s.takeWhile isAlpha, r, ?_, hnil, fun b hb => List.mem_takeWhile_imp hb, hdrop ▸ hhost⟩
    rw [hr, List.takeWhile_append_dropWhile]
  · rintro ⟨letters, r, rfl, hnil, hletters, hhost⟩
    refine ⟨?_, ?_, ?_⟩
    · rwa [takeWhile_run hletters stops_scheme]
    · rw [dropWhile_run hletters stops_scheme]
      exact List.isPrefixOf_iff_prefix.mpr (List.prefix_append _ _)
    · rw [dropWhile_run hletters stops_scheme]
      exact hhost

/-- The first group takes part in a match exactly behind a scheme. -/
theorem fullMatch_schemeless {s : Bytes} :
    (∃ g, urlPattern.fullMatch s = some g ∧ g 1 = none) ↔ Schemeless s := by
  by_cases h : HasScheme s
  · refine iff_of_false ?_ fun hs => hs.2.2 h
    obtain ⟨letters, r, rfl, hnil, hletters, hhost⟩ := hasScheme_iff.1 h
    rintro ⟨g, hg, hone⟩
    rw [fullMatch_scheme hletters hnil, hostMatch_scheme hletters hnil] at hg
    cases hr : hostMatch (Function.update (fun _ => none) 1 (some letters)) r with
    | some g' =>
      rw [hr, Option.some_or, Option.some.injEq] at hg
      subst hg
      have hfirst := (hostMatch_groups hr).1
      simp [hone] at hfirst
    | none =>
      have hline : ¬ ∀ b ∈ r, isAny b = true := by
        intro hall
        rw [hostMatch, if_pos ⟨hhost, fun b hb => hall b (List.dropWhile_subset _ hb)⟩] at hr
        cases hr
      rw [hr, Option.none_or, if_neg hline] at hg
      cases hg
  · have hmatch : urlPattern.fullMatch s = hostMatch (fun _ => none) s := by
      rw [fullMatch_eq]
      split_ifs with hscheme
      · have hempty : ((s.dropWhile isAlpha).drop 3).takeWhile isHost = [] := by
          by_contra hne
          exact h ⟨hscheme.1, hscheme.2, hne⟩
        have hnone : hostMatch (Function.update (fun _ => none) 1 (some (s.takeWhile isAlpha)))
            ((s.dropWhile isAlpha).drop 3) = none := if_neg fun hhost => hhost.1 hempty
        rw [hnone, Option.none_or]
      · rfl
    rw [hmatch]
    constructor
    · rintro ⟨g, hg, -⟩
      unfold hostMatch at hg
      split_ifs at hg with hs
      exact ⟨hs.1, hs.2, h⟩
    · rintro ⟨hhost, hline, -⟩
      have hsome : hostMatch (fun _ => none) s = some _ := if_pos ⟨hhost, hline⟩
      exact ⟨_, hsome, (hostMatch_groups hsome).1⟩

/-- The assertion on the scheme fails when the scheme is wanted and there is none. -/
theorem asserts_iff {s : Bytes} {returnProtocol returnPort : Bool} :
    URLToHostName s returnProtocol returnPort = .error .assertion ↔
      returnProtocol = true ∧ Schemeless s := by
  rw [← fullMatch_schemeless]
  unfold URLToHostName
  cases hmatch : urlPattern.fullMatch s with
  | none => simp
  | some g =>
    obtain ⟨host, hhost⟩ := fullMatch_host hmatch
    cases returnProtocol with
    | false => simp [hhost]
    | true => cases hone : g 1 <;> simp [hhost, hone]

/-- A composed URL is split into its parts exactly when it has a scheme and a host and no
port; and the assertion on the scheme fails on every text that matches without one. -/
theorem decomposes_iff (c : Composed) (s : Bytes) (returnProtocol returnPort : Bool) :
    (c.Inverts ↔ c.scheme ≠ [] ∧ c.host ≠ [] ∧ c.port = none) ∧
      (URLToHostName s returnProtocol returnPort ≠ .error .assertion ↔
        (returnProtocol = true → ¬ Schemeless s)) :=
  ⟨Composed.inverts_iff, by rw [ne_eq, asserts_iff, not_and]⟩

def withPort : Composed where
  scheme := text "http"
  host := text "host"
  port := some (text "80")
  path := []
  letters := by decide +kernel
  hostOctets := by decide +kernel
  digits := by
    rintro d ⟨⟩
    decide +kernel
  slash := .inl rfl
  line := by simp

/-- The port follows the host without its colon, and a host alone fails the assertion. -/
theorem not_decomposes : ¬ withPort.Inverts ∧
    URLToHostName (text "host") true false = .error .assertion := by
  constructor
  · intro h
    exact absurd (Composed.inverts_iff.mp h).2.2 (by decide)
  · refine asserts_iff.mpr ⟨rfl, ?_, ?_, fun h => ?_⟩
    · decide +kernel
    · decide +kernel
    · exact absurd h.2.1 (by decide +kernel)

end ACENetwork.Net.URLs
