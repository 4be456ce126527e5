import ACENetwork.BitTorrent.Common
import ACENetwork.HTTP.URL
import ACENetwork.Library.Backtracking

/-!
# The expressions of `parseURL`

`HTTP_Tools::parseURL` takes a URL apart with three regular expressions, one after the other. They
find the parts that the description of the function names.
-/
namespace ACENetwork.HTTP.URLPatterns
open BitTorrent (Fault)
open Library

def isAny (b : UInt8) : Bool := !(b == 0x0A || b == 0x0D)

/-- `[^\/]` -/
def isSegment (b : UInt8) : Bool := b != slash

def secureMark : Bytes := text "s"
def schemeMark : Bytes := text "://"

/-- `http(s)?` -/
def httpPattern : Pattern UInt8 := .seq (.word (text "http")) (.opt (.group 2 (.word secureMark)))

/-- `(s)?ftp` -/
def ftpPattern : Pattern UInt8 := .seq (.opt (.group 3 (.word secureMark))) (.word (text "ftp"))

/-- `ws(s)?` -/
def wsPattern : Pattern UInt8 := .seq (.word (text "ws")) (.opt (.group 4 (.word secureMark)))

section Matchers
variable {β : Type}

/-- `(?:(http(s)?|(s)?ftp|ws(s)?)(?:\://))?` -/
def schemeMatcher : Matcher UInt8 β :=
  .maybe (.both (.capture 1 (.either httpPattern.run (.either ftpPattern.run wsPattern.run)))
    (Pattern.word schemeMark).run)

/-- `([^\/]*)(.*)` -/
def restPattern : Pattern UInt8 :=
  .seq (.group 5 (.chars isSegment 0 none)) (.group 6 (.chars isAny 0 none))

def urlMatcher : Matcher UInt8 (Groups UInt8) := .both schemeMatcher restPattern.run

/-- `^([[:alnum:].-]+)(?:\:([[:digit:]]{1,5}))?$` -/
def hostPattern : Pattern UInt8 :=
  .seq (.group 1 (.chars isHostOctet 1 none))
    (.opt (.seq (.word (text ":")) (.group 2 (.chars isDigit 1 (some 5)))))

/-- `(?:[^\/]+\/)*` -/
def segmentsMatcher : Matcher UInt8 β :=
  .star id (Pattern.seq (.chars isSegment 1 none) (.word [slash])).run

def uriMatcher : Matcher UInt8 (Groups UInt8) :=
  .both (Pattern.word [slash]).run
    (.both segmentsMatcher (Pattern.opt (.chars isSegment 0 none)).run)

end Matchers

def regexMatch (m : Matcher UInt8 (Groups UInt8)) (s : Bytes) : Option (Groups UInt8) :=
  m Pattern.atEnd s fun _ => none

def isSecure (groups : Groups UInt8) : Bool :=
  (groups 2).getD [] ++ (groups 3).getD [] ++ (groups 4).getD [] != []

/-- The host with its port, the host, and the port; no port is zero. -/
def readHost (host : Bytes) : Except Fault (Option (Bytes × Bytes × ℕ)) :=
  if host = [] then .ok (some ([], [], 0))
  else
    match hostPattern.fullMatch host with
    | none => .ok none
    | some groups =>
      match groups 1, groups 2 with
      | none, _ => .error .assertion
      | some name, none => .ok (some (name, name, 0))
      | some name, some digits => .ok (some (name ++ text ":" ++ digits, name, readPort digits))

def parseURL (URL : Bytes) (resolves : Bool) : Except Fault (Option URLParts) :=
  match regexMatch urlMatcher URL with
  | none => .ok none
  | some groups =>
    match groups 5, groups 6 with
    | some host, some path => do
      match ← readHost host with
      | none => .ok none
      | some (hostName, name, port) =>
        let URI := if path = [] then [slash] else path
        if (regexMatch uriMatcher URI).isNone then .ok none
        else if name ≠ [] ∧ resolves = false then .ok none
        else .ok (some ⟨hostName, addressPort port (isSecure groups), URI, isSecure groups⟩)
    | _, _ => .error .assertion

section Rest
variable {g : Groups UInt8} {s : Bytes}

theorem run_line (n : ℕ) (s : Bytes) (g : Groups UInt8) :
    (Pattern.group n (.chars isAny 0 none)).run Pattern.atEnd s g =
      if ∀ b ∈ s, isAny b = true then some (Function.update g n (some s)) else none := by
  obtain ⟨front, rest, rfl, hfront, hrest⟩ := exists_run isAny s
  rw [Pattern.run_group hfront hrest, if_pos (Nat.zero_le _), Pattern.atEnd]
  · cases rest with
    | nil => rw [if_pos rfl, List.append_nil, if_pos hfront]
    | cons b rest =>
      have hb : isAny b = false := hrest b rfl
      rw [if_neg (List.cons_ne_nil b rest), if_neg]
      intro hline
      have hany := hline b (List.mem_append_right _ List.mem_cons_self)
      rw [hb] at hany
      cases hany
  · intro m g' _ hm
    exact if_neg fun h => by simp [hm.not_ge] at h

/-- The host is the run in front of a slash, and the path one line behind it. -/
def restMatch (g : Groups UInt8) (s : Bytes) : Option (Groups UInt8) :=
  if ∀ b ∈ s.dropWhile isSegment, isAny b = true then
    some (Function.update (Function.update g 5 (some (s.takeWhile isSegment))) 6
      (some (s.dropWhile isSegment)))
  else none

theorem run_rest : restPattern.run Pattern.atEnd s g = restMatch g s := by
  obtain ⟨front, rest, rfl, hfront, hrest⟩ := exists_run isSegment s
  rw [restMatch, takeWhile_run hfront hrest, dropWhile_run hfront hrest, restPattern, Pattern.run]
  by_cases hany : ∀ b ∈ rest, isAny b = true
  · rw [if_pos hany]
    refine Pattern.run_group_first hfront hrest (Nat.zero_le _) ?_
    rw [run_line, if_pos hany]
  · rw [if_neg hany, Pattern.run_group hfront hrest]
    · rw [run_line, if_neg hany, ite_self]
    · intro m g' _ _
      rw [run_line]
      exact if_neg fun h => hany fun b hb => h b (List.mem_append_right _ hb)

end Rest

section Scheme
variable {β : Type} {k : Bytes → Groups UInt8 → Option β} {g : Groups UInt8}
  {letters rest w v : Bytes} {n : ℕ}

theorem prefix_letters (hw : ∀ b ∈ w, isAlpha b = true) (hrest : Stops isAlpha rest) :
    w <+: letters ++ rest ↔ w <+: letters := by
  refine ⟨fun h => ?_, fun h => h.trans (List.prefix_append _ _)⟩
  by_contra hnot
  have hle : letters.length < w.length := by
    by_contra hle
    exact hnot (List.prefix_of_prefix_length_le h (List.prefix_append _ _) (Nat.not_lt.mp hle))
  obtain ⟨tail, rfl⟩ := List.prefix_of_prefix_length_le (List.prefix_append letters rest) h hle.le
  obtain ⟨b, tail, rfl⟩ : ∃ b tail', tail = b :: tail' :=
    List.exists_cons_of_ne_nil (by rintro rfl; simp at hle)
  have hfront : b :: tail <+: rest := (List.prefix_append_right_inj letters).mp h
  obtain ⟨more, rfl⟩ := hfront
  have hstop := hrest b rfl
  have halpha := hw b (List.mem_append_right _ List.mem_cons_self)
  rw [hstop] at halpha
  cases halpha

theorem run_word (hw : ∀ b ∈ w, isAlpha b = true) (hrest : Stops isAlpha rest) :
    (Pattern.word w).run k (letters ++ rest) g =
      if w <+: letters then k (letters.drop w.length ++ rest) g else none := by
  rw [Pattern.run]
  simp only [List.isPrefixOf_iff_prefix, prefix_letters hw hrest]
  by_cases hprefix : w <+: letters
  · rw [if_pos hprefix, if_pos hprefix, List.drop_append_of_le_length hprefix.length_le]
  · rw [if_neg hprefix, if_neg hprefix]

theorem schemeMark_eq : schemeMark = [':'.toUInt8, '/'.toUInt8, '/'.toUInt8] := rfl

theorem run_mark (hletters : ∀ b ∈ letters, isAlpha b = true) :
    (Pattern.word schemeMark).run k (letters ++ rest) g =
      if letters = [] ∧ schemeMark <+: rest then k (rest.drop 3) g else none := by
  rw [Pattern.run]
  cases letters with
  | nil => simp [schemeMark_eq]
  | cons b letters =>
    have hb : b ≠ ':'.toUInt8 := by
      rintro rfl
      exact absurd (hletters _ List.mem_cons_self) (by decide)
    rw [if_neg, if_neg (by simp)]
    rw [List.isPrefixOf_iff_prefix, schemeMark_eq]
    exact fun h => hb (List.cons_prefix_cons.mp h).1.symm

def marked (k : Bytes → Groups UInt8 → Option β) (s rest : Bytes) (g : Groups UInt8) : Option β :=
  (Pattern.word schemeMark).run k rest
    (Function.update g 1 (some (s.take (s.length - rest.length))))

theorem marked_eq {l : Bytes} (hl : ∀ b ∈ l, isAlpha b = true) :
    marked k (letters ++ rest) (l ++ rest) g =
      if l = [] ∧ schemeMark <+: rest then
        k (rest.drop 3) (Function.update g 1 (some letters)) else none := by
  rw [marked, run_mark hl]
  by_cases h : l = [] ∧ schemeMark <+: rest
  · rw [if_pos h, if_pos h, h.1, List.nil_append, Pattern.take_group]
  · rw [if_neg h, if_neg h]

theorem run_captured {k : Bytes → Groups UInt8 → Option β} (hv : ∀ b ∈ v, isAlpha b = true)
    (hrest : Stops isAlpha rest) :
    (Pattern.group n (.word v)).run k (letters ++ rest) g =
      if v <+: letters then
        k (letters.drop v.length ++ rest) (Function.update g n (some v)) else none := by
  rw [Pattern.run_capture, run_word hv hrest]
  by_cases hprefix : v <+: letters
  · obtain ⟨l, rfl⟩ := hprefix
    rw [if_pos (List.prefix_append v l), if_pos (List.prefix_append v l), List.drop_left,
      List.append_assoc, Pattern.take_group]
  · rw [if_neg hprefix, if_neg hprefix]

variable (hw : ∀ b ∈ w, isAlpha b = true) (hv : ∀ b ∈ v, isAlpha b = true)
  (hletters : ∀ b ∈ letters, isAlpha b = true) (hrest : Stops isAlpha rest)
include hw hv hletters hrest

theorem run_suffix : (Pattern.seq (.word w) (.opt (.group n (.word v)))).run
      (marked k (letters ++ rest)) (letters ++ rest) g =
    (if letters = w ++ v ∧ schemeMark <+: rest then
        k (rest.drop 3) (Function.update (Function.update g n (some v)) 1 (some letters))
      else none).or
    (if letters = w ∧ schemeMark <+: rest then
        k (rest.drop 3) (Function.update g 1 (some letters)) else none) := by
  rw [Pattern.run, run_word hw hrest]
  by_cases hprefix : w <+: letters
  · obtain ⟨l, rfl⟩ := hprefix
    have hl : ∀ b ∈ l, isAlpha b = true := fun b hb => hletters b (List.mem_append_right _ hb)
    rw [if_pos (List.prefix_append w l), List.drop_left, Pattern.run, run_captured hv hrest,
      marked_eq hl]
    congr 1
    · by_cases hgroup : v <+: l
      · obtain ⟨l', rfl⟩ := hgroup
        rw [if_pos (List.prefix_append v l'), List.drop_left,
          marked_eq fun b hb => hl b (List.mem_append_right _ hb)]
        simp
      · rw [if_neg hgroup, if_neg]
        rintro ⟨h, -⟩
        exact hgroup ((List.append_cancel_left h) ▸ List.prefix_rfl)
    · simp
  · rw [if_neg hprefix, if_neg, if_neg]
    · rfl
    · rintro ⟨rfl, -⟩
      exact hprefix List.prefix_rfl
    · rintro ⟨rfl, -⟩
      exact hprefix (List.prefix_append w v)

theorem run_prefix : (Pattern.seq (.opt (.group n (.word v))) (.word w)).run
      (marked k (letters ++ rest)) (letters ++ rest) g =
    (if letters = v ++ w ∧ schemeMark <+: rest then
        k (rest.drop 3) (Function.update (Function.update g n (some v)) 1 (some letters))
      else none).or
    (if letters = w ∧ schemeMark <+: rest then
        k (rest.drop 3) (Function.update g 1 (some letters)) else none) := by
  have hplain (l : Bytes) (g : Groups UInt8) (hl : ∀ b ∈ l, isAlpha b = true) :
      (Pattern.word w).run (marked k (letters ++ rest)) (l ++ rest) g =
        if l = w ∧ schemeMark <+: rest then
          k (rest.drop 3) (Function.update g 1 (some letters)) else none := by
    rw [run_word hw hrest]
    by_cases hprefix : w <+: l
    · obtain ⟨l', rfl⟩ := hprefix
      rw [if_pos (List.prefix_append w l'), List.drop_left,
        marked_eq fun b hb => hl b (List.mem_append_right _ hb)]
      simp
    · rw [if_neg hprefix, if_neg]
      rintro ⟨rfl, -⟩
      exact hprefix List.prefix_rfl
  rw [Pattern.run, Pattern.run, run_captured hv hrest, hplain letters g hletters]
  congr 1
  by_cases hgroup : v <+: letters
  · obtain ⟨l, rfl⟩ := hgroup
    rw [if_pos (List.prefix_append v l), List.drop_left,
      hplain l _ fun b hb => hletters b (List.mem_append_right _ hb)]
    simp
  · rw [if_neg hgroup, if_neg]
    rintro ⟨rfl, -⟩
    exact hgroup (List.prefix_append v w)

omit hv hletters in
theorem prefix_marked (hletters : ∀ b ∈ letters, isAlpha b = true) :
    w ++ schemeMark <+: letters ++ rest ↔ letters = w ∧ schemeMark <+: rest := by
  constructor
  · intro h
    obtain ⟨l, rfl⟩ := (prefix_letters hw hrest).mp ((List.prefix_append _ _).trans h)
    rw [List.append_assoc, List.prefix_append_right_inj] at h
    cases l with
    | nil => exact ⟨List.append_nil w, h⟩
    | cons b l =>
      rw [schemeMark_eq] at h
      obtain rfl := (List.cons_prefix_cons.mp h).1
      exact absurd (hletters _ (List.mem_append_right _ List.mem_cons_self)) (by decide)
  · rintro ⟨rfl, h⟩
    exact (List.prefix_append_right_inj _).mpr h

omit hw hv hletters hrest

theorem http_eq : text "http" = [0x68, 0x74, 0x74, 0x70] := rfl
theorem https_eq : text "https" = [0x68, 0x74, 0x74, 0x70, 0x73] := rfl
theorem ftp_eq : text "ftp" = [0x66, 0x74, 0x70] := rfl
theorem sftp_eq : text "sftp" = [0x73, 0x66, 0x74, 0x70] := rfl
theorem ws_eq : text "ws" = [0x77, 0x73] := rfl
theorem wss_eq : text "wss" = [0x77, 0x73, 0x73] := rfl
theorem secureMark_eq : secureMark = [0x73] := rfl

theorem isAlpha_words : ∀ word ∈ [text "http", text "ftp", text "ws", secureMark],
    ∀ b ∈ word, isAlpha b = true := by
  have hall : ([text "http", text "ftp", text "ws", secureMark].all fun word =>
      word.all isAlpha) = true := rfl
  intro word hword
  exact List.all_eq_true.mp (List.all_eq_true.mp hall word hword)

theorem isAlpha_schemes : ∀ scheme ∈ schemes, ∀ b ∈ scheme.1, isAlpha b = true := by
  have hall : (schemes.all fun scheme => scheme.1.all isAlpha) = true := rfl
  intro scheme hscheme
  exact List.all_eq_true.mp (List.all_eq_true.mp hall scheme hscheme)

/-- The six schemes in the order in which they are tried, and none of them. -/
theorem schemeMatcher_eq (hletters : ∀ b ∈ letters, isAlpha b = true)
    (hrest : Stops isAlpha rest) :
    schemeMatcher k (letters ++ rest) g =
      (((if letters = text "https" ∧ schemeMark <+: rest then
          k (rest.drop 3) (Function.update (Function.update g 2 (some secureMark)) 1 (some letters))
        else none).or
      (if letters = text "http" ∧ schemeMark <+: rest then
          k (rest.drop 3) (Function.update g 1 (some letters)) else none)).or
      (((if letters = text "sftp" ∧ schemeMark <+: rest then
          k (rest.drop 3) (Function.update (Function.update g 3 (some secureMark)) 1 (some letters))
        else none).or
      (if letters = text "ftp" ∧ schemeMark <+: rest then
          k (rest.drop 3) (Function.update g 1 (some letters)) else none)).or
      ((if letters = text "wss" ∧ schemeMark <+: rest then
          k (rest.drop 3) (Function.update (Function.update g 4 (some secureMark)) 1 (some letters))
        else none).or
      (if letters = text "ws" ∧ schemeMark <+: rest then
          k (rest.drop 3) (Function.update g 1 (some letters)) else none)))).or
      (k (letters ++ rest) g) := by
  have hsecure := isAlpha_words secureMark (by simp)
  have hhttp := isAlpha_words (text "http") (by simp)
  have hftp := isAlpha_words (text "ftp") (by simp)
  have hws := isAlpha_words (text "ws") (by simp)
  have hhttps : text "https" = text "http" ++ secureMark := rfl
  have hsftp : text "sftp" = secureMark ++ text "ftp" := rfl
  have hwss : text "wss" = text "ws" ++ secureMark := rfl
  rw [hhttps, hsftp, hwss, ← run_suffix hhttp hsecure hletters hrest, ← run_prefix hftp hsecure hletters hrest,
    ← run_suffix hws hsecure hletters hrest]
  rfl

theorem splitScheme_eq (hletters : ∀ b ∈ letters, isAlpha b = true) (hrest : Stops isAlpha rest) :
    splitScheme (letters ++ rest) =
      match schemes.find? fun scheme => decide (letters = scheme.1 ∧ schemeMark <+: rest) with
      | some scheme => ((letters ++ rest).drop (scheme.1 ++ schemeMark).length, scheme.2)
      | none => (letters ++ rest, false) := by
  have hfind : (schemes.find? fun scheme => (scheme.1 ++ schemeMark).isPrefixOf (letters ++ rest)) =
      schemes.find? fun scheme => decide (letters = scheme.1 ∧ schemeMark <+: rest) := by
    refine List.find?_congr fun scheme hscheme => ?_
    rw [Bool.eq_iff_iff, List.isPrefixOf_iff_prefix, decide_eq_true_eq]
    exact prefix_marked (isAlpha_schemes scheme hscheme) hrest hletters
  rw [← hfind]
  rfl

theorem splitScheme_marked {scheme : Bytes × Bool} (hscheme : scheme ∈ schemes) (r : Bytes) :
    splitScheme (scheme.1 ++ (schemeMark ++ r)) = (r, scheme.2) := by
  have hstops : Stops isAlpha (schemeMark ++ r) := by
    rintro b ⟨⟩
    rfl
  rw [splitScheme_eq (isAlpha_schemes scheme hscheme) hstops]
  simp only [schemes, List.mem_cons, List.not_mem_nil, or_false] at hscheme
  rcases hscheme with rfl | rfl | rfl | rfl | rfl | rfl <;>
    simp [schemes, http_eq, https_eq, ftp_eq, sftp_eq, ws_eq, wss_eq, schemeMark_eq]

/-- The groups without a match. -/
def noGroups : Groups UInt8 := fun _ => none

def schemeGroups (scheme : Bytes) : Groups UInt8 :=
  Function.update
    (if scheme = text "https" then Function.update noGroups 2 (some secureMark)
    else if scheme = text "sftp" then Function.update noGroups 3 (some secureMark)
    else if scheme = text "wss" then Function.update noGroups 4 (some secureMark)
    else noGroups) 1 (some scheme)

/-- A text has no scheme, or one whose groups tell whether it is secure. -/
theorem scheme_cases (s : Bytes) :
    (splitScheme s = (s, false) ∧
      ∀ k : Bytes → Groups UInt8 → Option β, schemeMatcher k s noGroups = k s noGroups) ∨
    ∃ letters r secure g, s = letters ++ (schemeMark ++ r) ∧ (∀ b ∈ letters, isAlpha b = true) ∧
      splitScheme s = (r, secure) ∧ isSecure g = secure ∧
      ∀ k : Bytes → Groups UInt8 → Option β,
        schemeMatcher k s noGroups = (k r g).or (k s noGroups) := by
  obtain ⟨letters, rest, rfl, hletters, hrest⟩ := exists_run isAlpha s
  by_cases hknown : (∃ scheme ∈ schemes, letters = scheme.1) ∧ schemeMark <+: rest
  · obtain ⟨⟨scheme, hscheme, rfl⟩, r, rfl⟩ := hknown
    refine .inr ⟨scheme.1, r, scheme.2, schemeGroups scheme.1, rfl, hletters,
      splitScheme_marked hscheme r, ?_, ?_⟩
    · simp only [schemes, List.mem_cons, List.not_mem_nil, or_false] at hscheme
      rcases hscheme with rfl | rfl | rfl | rfl | rfl | rfl <;> rfl
    · intro k
      rw [schemeMatcher_eq hletters hrest]
      simp only [schemes, List.mem_cons, List.not_mem_nil, or_false] at hscheme
      rcases hscheme with rfl | rfl | rfl | rfl | rfl | rfl <;>
        simp [schemeGroups, http_eq, https_eq, ftp_eq, sftp_eq, ws_eq, wss_eq, secureMark_eq,
          schemeMark_eq]
  · refine .inl ⟨?_, fun k => ?_⟩
    · have hnone : (schemes.find? fun scheme =>
          decide (letters = scheme.1 ∧ schemeMark <+: rest)) = none := by
        rw [List.find?_eq_none]
        intro scheme hscheme
        simpa using fun heq hmark => hknown ⟨⟨scheme, hscheme, heq⟩, hmark⟩
      rw [splitScheme_eq hletters hrest, hnone]
    · have hnot (scheme : Bytes × Bool) (hscheme : scheme ∈ schemes) :
          ¬ (letters = scheme.1 ∧ schemeMark <+: rest) :=
        fun h => hknown ⟨⟨scheme, hscheme, h.1⟩, h.2⟩
      rw [schemeMatcher_eq hletters hrest, if_neg (hnot (text "https", true) (by simp [schemes])),
        if_neg (hnot (text "http", false) (by simp [schemes])),
        if_neg (hnot (text "sftp", true) (by simp [schemes])),
        if_neg (hnot (text "ftp", false) (by simp [schemes])),
        if_neg (hnot (text "wss", true) (by simp [schemes])),
        if_neg (hnot (text "ws", false) (by simp [schemes]))]
      rfl

end Scheme

section Match

theorem isSecure_rest (g : Groups UInt8) (host path : Option Bytes) :
    isSecure (Function.update (Function.update g 5 host) 6 path) = isSecure g := rfl

theorem isSegment_scheme {letters : Bytes} (hletters : ∀ b ∈ letters, isAlpha b = true) :
    ∀ b ∈ letters ++ [':'.toUInt8], isSegment b = true := by
  intro b hb
  rw [isSegment, bne_iff_ne]
  rintro rfl
  rcases List.mem_append.mp hb with hletter | hcolon
  · exact absurd (hletters _ hletter) (by decide)
  · exact absurd (List.mem_singleton.mp hcolon) (by decide)

theorem dropWhile_scheme {letters : Bytes} (hletters : ∀ b ∈ letters, isAlpha b = true)
    (r : Bytes) : (letters ++ (schemeMark ++ r)).dropWhile isSegment = slash :: slash :: r := by
  have hsplit : letters ++ (schemeMark ++ r) = (letters ++ [':'.toUInt8]) ++ slash :: slash :: r := by
    rw [schemeMark_eq, List.append_assoc]
    rfl
  have hstops : Stops isSegment (slash :: slash :: r) := by
    rintro b ⟨⟩
    rfl
  rw [hsplit, dropWhile_run (isSegment_scheme hletters) hstops]

/-- The first expression splits a URL behind its scheme at the first slash. -/
theorem regexMatch_url (URL : Bytes) :
    (∀ b ∈ (splitScheme URL).1.dropWhile isSegment, isAny b = true) ∧
      (∃ groups, regexMatch urlMatcher URL = some groups ∧
        groups 5 = some ((splitScheme URL).1.takeWhile isSegment) ∧
        groups 6 = some ((splitScheme URL).1.dropWhile isSegment) ∧
        isSecure groups = (splitScheme URL).2) ∨
    ¬ (∀ b ∈ (splitScheme URL).1.dropWhile isSegment, isAny b = true) ∧
      regexMatch urlMatcher URL = none := by
  have hmatch : regexMatch urlMatcher URL =
      schemeMatcher (fun rest g => restMatch g rest) URL noGroups := by
    have hrest : (fun rest g => restPattern.run Pattern.atEnd rest g) =
        fun rest g => restMatch g rest := by
      funext rest g
      exact run_rest
    rw [← hrest]
    rfl
  rw [hmatch]
  rcases scheme_cases (β := Groups UInt8) URL with ⟨hsplit, hnone⟩ |
    ⟨letters, r, secure, g, hURL, hletters, hsplit, hsecure, hmatched⟩
  · rw [hsplit, hnone]
    dsimp only
    by_cases hline : ∀ b ∈ URL.dropWhile isSegment, isAny b = true
    · exact .inl ⟨hline, _, if_pos hline, rfl, rfl, rfl⟩
    · exact .inr ⟨hline, if_neg hline⟩
  · rw [hsplit, hmatched]
    dsimp only
    by_cases hline : ∀ b ∈ r.dropWhile isSegment, isAny b = true
    · refine .inl ⟨hline, Function.update (Function.update g 5 (some (r.takeWhile isSegment))) 6
        (some (r.dropWhile isSegment)), ?_, rfl, rfl, ?_⟩
      · rw [restMatch, if_pos hline, Option.some_or]
      · rw [isSecure_rest, hsecure]
    · refine .inr ⟨hline, ?_⟩
      rw [restMatch, if_neg hline, Option.none_or, restMatch, hURL, dropWhile_scheme hletters]
      refine if_neg fun h => hline fun b hb => h b ?_
      exact List.mem_cons_of_mem _ (List.mem_cons_of_mem _ ((List.dropWhile_suffix _).subset hb))

end Match

section Host
variable {g : Groups UInt8}

theorem run_port (s : Bytes) (g : Groups UInt8) :
    (Pattern.group 2 (.chars isDigit 1 (some 5))).run Pattern.atEnd s g =
      if s.all isDigit = true ∧ 1 ≤ s.length ∧ s.length ≤ 5 then some (Function.update g 2 (some s))
      else none := by
  rw [Pattern.run_capture]
  split_ifs with h
  · obtain ⟨hall, hone, hfive⟩ := h
    have hrun := @Pattern.run_chars_atMost UInt8 (Groups UInt8) _ isDigit 1
      (fun rest g => Pattern.atEnd rest
        (Function.update g 2 (some (s.take (s.length - rest.length))))) s [] g
      (Function.update g 2 (some s)) 5 (List.all_eq_true.mp hall) (by simp [Stops]) hone hfive
      (by simp [Pattern.atEnd])
    rwa [List.append_nil] at hrun
  · rw [Option.eq_none_iff_forall_ne_some]
    intro groups hrun
    obtain ⟨digits, rest, rfl, hall, hone, hfive, hend⟩ := Pattern.run_chars_some hrun
    rw [Pattern.atEnd] at hend
    split_ifs at hend with hrest
    rw [hrest, List.append_nil] at h
    exact h ⟨List.all_eq_true.mpr hall, hone, hfive 5 rfl⟩

def portMatch (g : Groups UInt8) : Bytes → Option (Groups UInt8)
  | [] => some g
  | separator :: digits =>
    if separator == 0x3A && digits.all isDigit && 1 ≤ digits.length && digits.length ≤ 5 then
      some (Function.update g 2 (some digits))
    else none

theorem run_portOption (s : Bytes) :
    (Pattern.opt (.seq (.word (text ":")) (.group 2 (.chars isDigit 1 (some 5))))).run
      Pattern.atEnd s g = portMatch g s := by
  have hcolon : text ":" = [0x3A] := rfl
  rw [Pattern.run, Pattern.run, Pattern.run, hcolon]
  cases s with
  | nil => rfl
  | cons separator digits =>
    by_cases hseparator : separator = 0x3A
    · subst hseparator
      simp [run_port, portMatch, Pattern.atEnd, and_assoc]
    · simp [portMatch, hseparator, Ne.symm hseparator, Pattern.atEnd]

theorem fullMatch_host (host : Bytes) :
    hostPattern.fullMatch host =
      if (host.takeWhile isHostOctet).isEmpty then none
      else portMatch (Function.update noGroups 1 (some (host.takeWhile isHostOctet)))
        (host.dropWhile isHostOctet) := by
  obtain ⟨name, rest, rfl, hname, hrest⟩ := exists_run isHostOctet host
  rw [takeWhile_run hname hrest, dropWhile_run hname hrest, hostPattern, Pattern.fullMatch,
    Pattern.run, Pattern.run_group hname hrest]
  · rw [run_portOption]
    cases name with
    | nil => rfl
    | cons b name => rfl
  · intro m g' _ hm
    obtain ⟨b, behind, hb⟩ := List.exists_cons_of_ne_nil
      (List.length_pos_iff.mp (by simpa using hm) : name.drop m ≠ [])
    have hoctet : isHostOctet b = true :=
      hname b (List.mem_of_mem_drop (hb ▸ List.mem_cons_self))
    have hcolon : b ≠ 0x3A := by
      rintro rfl
      exact absurd hoctet (by decide)
    rw [run_portOption, hb]
    simp [portMatch, hcolon]

theorem readHost_eq (host : Bytes) :
    readHost host = .ok (if host = [] then some ([], [], 0)
      else (splitHost host).map fun (name, digits) =>
        (name ++ digits.elim [] fun digits => 0x3A :: digits, name, digits.elim 0 readPort)) := by
  rw [readHost]
  split_ifs with hnil
  · rfl
  rw [fullMatch_host, splitHost]
  dsimp only
  split_ifs with hempty
  · rfl
  cases hrest : host.dropWhile isHostOctet with
  | nil => simp [portMatch, noGroups]
  | cons separator digits =>
    rw [portMatch]
    dsimp only
    split_ifs with hport
    · have hcolon : text ":" = [0x3A] := rfl
      simp [hcolon]
    · rfl

end Host

section URI

def isSingle (s : Bytes) : Bool := (s.zip s.tail).all fun pair => pair != (slash, slash)

theorem isSingle_cons {b : UInt8} (s : Bytes) (h : b ≠ slash) : isSingle (b :: s) = isSingle s := by
  cases s with
  | nil => rfl
  | cons c s => simp [isSingle, h]

theorem isSingle_append {front : Bytes} (h : ∀ b ∈ front, isSegment b = true) (s : Bytes) :
    isSingle (front ++ s) = isSingle s := by
  induction front with
  | nil => rfl
  | cons b front ih =>
    have hb : b ≠ slash := bne_iff_ne.mp (h b List.mem_cons_self)
    rw [List.cons_append, isSingle_cons _ hb, ih fun b hb => h b (List.mem_cons_of_mem _ hb)]

theorem isSingle_slash {s : Bytes} (h : s.head? ≠ some slash) :
    isSingle (slash :: s) = isSingle s := by
  cases s with
  | nil => rfl
  | cons c s =>
    have hc : c ≠ slash := fun hc => h (by rw [hc]; rfl)
    simp [isSingle, hc]

theorem isSome_last (s : Bytes) (g : Groups UInt8) :
    ((Pattern.opt (.chars isSegment 0 none)).run Pattern.atEnd s g).isSome = s.all isSegment := by
  obtain ⟨front, rest, rfl, hfront, hrest⟩ := exists_run isSegment s
  rw [Pattern.run, Pattern.run_chars hfront hrest, if_pos (Nat.zero_le _), Pattern.atEnd,
    Pattern.atEnd]
  · cases rest with
    | nil =>
      rw [if_pos rfl, Option.some_or, List.append_nil]
      exact (List.all_eq_true.mpr hfront).symm
    | cons b rest =>
      have hb : isSegment b = false := hrest b rfl
      simp [hb]
  · intro m _ hm
    exact if_neg fun h => by simp [hm.not_ge] at h

theorem run_segment {β : Type} {k : Bytes → Groups UInt8 → Option β} {segment rest : Bytes}
    (g : Groups UInt8) (hsegment : ∀ b ∈ segment, isSegment b = true)
    (hrest : Stops isSegment rest) :
    (Pattern.seq (.chars isSegment 1 none) (.word [slash])).run k (segment ++ rest) g =
      if segment ≠ [] ∧ rest ≠ [] then k rest.tail g else none := by
  rw [Pattern.run, Pattern.run_chars hsegment hrest]
  · rw [Pattern.run]
    cases segment with
    | nil => rfl
    | cons c segment =>
      cases rest with
      | nil => rfl
      | cons b rest =>
        have hslash : b = slash := by simpa [isSegment] using hrest b rfl
        simp [hslash]
  · intro m _ hm
    obtain ⟨b, behind, hb⟩ := List.exists_cons_of_ne_nil
      (List.length_pos_iff.mp (by simpa using hm) : segment.drop m ≠ [])
    have hne : slash ≠ b := by
      have hsegment := hsegment b (List.mem_of_mem_drop (hb ▸ List.mem_cons_self))
      exact (bne_iff_ne.mp hsegment).symm
    rw [Pattern.run, hb]
    simp [hne]

theorem isSome_segments (s : Bytes) (g : Groups UInt8) :
    (segmentsMatcher (fun rest g => (Pattern.opt (.chars isSegment 0 none)).run Pattern.atEnd rest g)
      s g).isSome = isSingle (slash :: s) := by
  induction hn : s.length using Nat.strong_induction_on generalizing s g with
  | _ n ih =>
    obtain ⟨segment, rest, rfl, hsegment, hrest⟩ := exists_run isSegment s
    cases hs : segment ++ rest with
    | nil => rfl
    | cons a s =>
      rw [segmentsMatcher, Matcher.star_cons, ← hs, run_segment _ hsegment hrest]
      rw [hs] at hn
      by_cases hround : segment ≠ [] ∧ rest ≠ []
      · obtain ⟨c, segment, rfl⟩ := List.exists_cons_of_ne_nil hround.1
        obtain ⟨b, rest, rfl⟩ := List.exists_cons_of_ne_nil hround.2
        obtain rfl : b = slash := by simpa [isSegment] using hrest b rfl
        have hlast : (Pattern.opt (.chars isSegment 0 none)).run Pattern.atEnd
            (c :: segment ++ slash :: rest) g = none := by
          rw [← Option.not_isSome_iff_eq_none, isSome_last]
          simp [isSegment]
        have hhead : (c :: segment ++ slash :: rest).head? ≠ some slash := by
          have hc := bne_iff_ne.mp (hsegment c List.mem_cons_self)
          simpa using hc
        have hlength : rest.length < (c :: segment ++ slash :: rest).length := by
          simp only [List.length_append, List.length_cons]
          omega
        rw [if_pos hround, List.tail_cons, if_pos hlength,
          hlast, Option.or_none, isSingle_slash hhead, isSingle_append hsegment]
        exact ih rest.length (by rw [← hn, ← hs]; exact hlength) rest g rfl
      · rw [if_neg hround, Option.none_or, isSome_last]
        cases segment with
        | nil =>
          obtain ⟨b, rest, rfl⟩ : ∃ b rest', rest = b :: rest' :=
            List.exists_cons_of_ne_nil (by rintro rfl; cases hs)
          obtain rfl : b = slash := by simpa [isSegment] using hrest b rfl
          simp [isSingle, isSegment]
        | cons c segment =>
          obtain rfl : rest = [] := by simpa using hround
          have hhead : (c :: segment ++ []).head? ≠ some slash := by
            have hc := bne_iff_ne.mp (hsegment c List.mem_cons_self)
            simpa using hc
          rw [isSingle_slash hhead, isSingle_append hsegment, List.append_nil,
            List.all_eq_true.mpr hsegment]
          rfl

theorem isSome_uri (URI : Bytes) :
    (regexMatch uriMatcher URI).isSome = isAbsoluteURI URI := by
  have hrun : regexMatch uriMatcher URI =
      if [slash].isPrefixOf URI then
        segmentsMatcher (fun rest g =>
          (Pattern.opt (.chars isSegment 0 none)).run Pattern.atEnd rest g) (URI.drop 1) noGroups
      else none := rfl
  rw [hrun]
  cases URI with
  | nil => rfl
  | cons b rest =>
    by_cases hb : b = slash
    · subst hb
      have hprefix : [slash].isPrefixOf (slash :: rest) = true := by simp
      rw [if_pos hprefix, List.drop_succ_cons, List.drop_zero, isSome_segments]
      rfl
    · have hprefix : ¬ [slash].isPrefixOf (b :: rest) = true := by simp [Ne.symm hb]
      rw [if_neg hprefix]
      simp [isAbsoluteURI, hb]

end URI

section Parts
variable (URL : Bytes) (resolves : Bool)

theorem splitHost_name {host name : Bytes} {digits : Option Bytes}
    (h : splitHost host = some (name, digits)) : name ≠ [] := by
  rw [splitHost] at h
  split_ifs at h with hempty
  have hname : host.takeWhile isHostOctet = name := by
    cases hrest : host.dropWhile isHostOctet with
    | nil =>
      rw [hrest] at h
      exact (Prod.mk.inj (Option.some.inj h)).1
    | cons separator digits =>
      rw [hrest] at h
      dsimp only at h
      split_ifs at h
      exact (Prod.mk.inj (Option.some.inj h)).1
  rintro rfl
  rw [hname] at hempty
  exact hempty rfl

theorem parseURL_split : HTTP.parseURL URL resolves =
    if ∀ b ∈ (splitScheme URL).1.dropWhile isSegment, isAny b = true then
      let host := (splitScheme URL).1.takeWhile isSegment
      let path := (splitScheme URL).1.dropWhile isSegment
      let URI := if path = [] then [slash] else path
      (if host = [] then some ([], [], 0)
        else (splitHost host).map fun (name, digits) =>
          (name ++ digits.elim [] fun digits => 0x3A :: digits, name, digits.elim 0 readPort)).bind
        fun (hostName, name, port) =>
          if isAbsoluteURI URI = false then none
          else if name ≠ [] ∧ resolves = false then none
          else some ⟨hostName, addressPort port (splitScheme URL).2, URI, (splitScheme URL).2⟩
    else none := by
  rcases hsplit : splitScheme URL with ⟨rest, useSSL⟩
  have hsegment : (fun b => b != slash) = isSegment := rfl
  have hline : (rest.dropWhile isSegment).any (fun b => b == 0x0A || b == 0x0D) = true ↔
      ¬ ∀ b ∈ rest.dropWhile isSegment, isAny b = true := by
    simp [isAny, or_iff_not_imp_left]
  simp only [HTTP.parseURL, hsplit, hsegment, hline, List.isEmpty_iff]
  generalize (if rest.dropWhile isSegment = [] then [slash] else rest.dropWhile isSegment) = URI
  by_cases hany : ∀ b ∈ rest.dropWhile isSegment, isAny b = true
  · rw [if_neg (not_not_intro hany), if_pos hany]
    by_cases hnil : rest.takeWhile isSegment = []
    · rw [if_pos hnil, if_pos hnil, Option.bind_some]
      cases isAbsoluteURI URI <;> simp
    · rw [if_neg hnil, if_neg hnil]
      cases hparts : splitHost (rest.takeWhile isSegment) with
      | none => rfl
      | some parts =>
        obtain ⟨name, digits⟩ := parts
        have hname := splitHost_name hparts
        cases isAbsoluteURI URI <;> cases resolves <;> simp [hname]
  · rw [if_pos hany, if_neg hany]

/-- The expressions find the parts of a URL as the description of the function does. -/
theorem parseURL_eq : parseURL URL resolves = .ok (HTTP.parseURL URL resolves) := by
  rw [parseURL_split, parseURL]
  rcases regexMatch_url URL with ⟨hline, groups, hmatch, hhost, hpath, hsecure⟩ | ⟨hline, hmatch⟩
  · rw [if_pos hline, hmatch]
    dsimp only
    rw [hhost, hpath]
    dsimp only
    rw [readHost_eq, hsecure]
    generalize (if (splitScheme URL).1.takeWhile isSegment = [] then some ([], [], 0)
      else (splitHost ((splitScheme URL).1.takeWhile isSegment)).map fun (name, digits) =>
        (name ++ digits.elim [] fun digits => 0x3A :: digits, name, digits.elim 0 readPort)) = parts
    cases parts with
    | none => rfl
    | some parts =>
      obtain ⟨hostName, name, port⟩ := parts
      simp only [bind, Except.bind, Option.bind_some]
      have huri := isSome_uri (if (splitScheme URL).1.dropWhile isSegment = [] then [slash]
        else (splitScheme URL).1.dropWhile isSegment)
      rw [← Option.not_isSome, huri]
      by_cases hunresolved : name ≠ [] ∧ resolves = false
      · cases isAbsoluteURI (if (splitScheme URL).1.dropWhile isSegment = [] then [slash]
          else (splitScheme URL).1.dropWhile isSegment) <;> simp [hunresolved]
      · cases isAbsoluteURI (if (splitScheme URL).1.dropWhile isSegment = [] then [slash]
          else (splitScheme URL).1.dropWhile isSegment) <;> simp [hunresolved]
  · rw [if_neg hline, hmatch]

end Parts

section Composed

inductive Scheme where
  | http
  | https
  | ws
  | wss
  deriving DecidableEq, Repr

def Scheme.name : Scheme → Bytes
  | http => text "http"
  | https => text "https"
  | ws => text "ws"
  | wss => text "wss"

def Scheme.secure : Scheme → Bool
  | http | ws => false
  | https | wss => true

def isURIChar (b : UInt8) : Bool :=
  isAlpha b || isDigit b || (text "-._~%!$&'()*+,;=:@/?").contains b

variable (scheme : Option Scheme) (host : Bytes) (port : Option Bytes) (path : Bytes)

def isSecureScheme : Bool := scheme.elim false Scheme.secure

def hostPort : Bytes := host ++ port.elim [] fun digits => 0x3A :: digits

/-- A URL of a scheme, a host, the text of a port, and a path. -/
def composed : Bytes :=
  scheme.elim [] (fun scheme => scheme.name ++ schemeMark) ++ (hostPort host port ++ path)

variable {scheme host port path}

/-- A port has a text, which is in front of the path. -/
def IsPortText (digits : Bytes) : Prop := digits ≠ [] ∧ slash ∉ digits

theorem isSegment_hostPort (hhost : ∀ b ∈ host, isHostOctet b = true)
    (hport : ∀ digits ∈ port, IsPortText digits) :
    ∀ b ∈ hostPort host port, isSegment b = true := by
  intro b hb
  rw [isSegment, bne_iff_ne]
  rintro rfl
  rcases List.mem_append.mp hb with hb | hb
  · exact absurd (hhost _ hb) (by decide)
  · cases port with
    | none => cases hb
    | some digits =>
      rcases List.mem_cons.mp hb with hcolon | hdigit
      · exact absurd hcolon (by decide)
      · exact (hport digits rfl).2 hdigit

theorem stops_path (rest : Bytes) : Stops isSegment (slash :: rest) := by
  rintro b ⟨⟩
  rfl

theorem stops_host (rest : Bytes) :
    Stops isHostOctet ((port.elim [] fun digits => 0x3A :: digits) ++ slash :: rest) := by
  cases port with
  | none =>
    rintro b ⟨⟩
    rfl
  | some digits =>
    rintro b ⟨⟩
    rfl

theorem splitScheme_composed {rest : Bytes} (hhost : ∀ b ∈ host, isHostOctet b = true)
    (hport : ∀ digits ∈ port, IsPortText digits) :
    splitScheme (composed scheme host port (slash :: rest)) =
      (hostPort host port ++ slash :: rest, isSecureScheme scheme) := by
  cases scheme with
  | some scheme =>
    have hscheme : (scheme.name, scheme.secure) ∈ schemes := by
      cases scheme <;> simp [schemes, Scheme.name, Scheme.secure]
    have hsplit := splitScheme_marked hscheme (hostPort host port ++ slash :: rest)
    rw [composed, Option.elim_some, List.append_assoc]
    exact hsplit
  | none =>
    have hnone : (schemes.find? fun scheme => (scheme.1 ++ schemeMark).isPrefixOf
        (hostPort host port ++ slash :: rest)) = none := by
      rw [List.find?_eq_none]
      intro scheme hscheme hprefix
      obtain ⟨more, hmore⟩ := List.isPrefixOf_iff_prefix.mp hprefix
      have halpha := isAlpha_schemes scheme hscheme
      have hname : ∀ b ∈ scheme.1, isHostOctet b = true := fun b hb => by
        rw [isHostOctet, halpha b hb]
        rfl
      have hmark : Stops isHostOctet (schemeMark ++ more) := by
        rintro b ⟨⟩
        rfl
      rw [List.append_assoc, hostPort, List.append_assoc] at hmore
      obtain ⟨-, hbehind⟩ := run_unique hname hhost hmark (stops_host rest) hmore
      cases hp : port with
      | none =>
        rw [hp, schemeMark_eq] at hbehind
        exact absurd (List.cons.inj hbehind).1 (by decide)
      | some digits =>
        obtain ⟨hne, hslash⟩ := hport digits hp
        obtain ⟨d, digits, rfl⟩ := List.exists_cons_of_ne_nil hne
        rw [hp, schemeMark_eq] at hbehind
        obtain ⟨hd, -⟩ := List.cons.inj (List.cons.inj hbehind).2
        exact hslash (List.mem_cons.mpr (.inl hd))
    rw [composed, Option.elim_none, List.nil_append]
    have hsplit : splitScheme (hostPort host port ++ slash :: rest) =
        match schemes.find? fun scheme => (scheme.1 ++ schemeMark).isPrefixOf
          (hostPort host port ++ slash :: rest) with
        | some scheme => ((hostPort host port ++ slash :: rest).drop
            (scheme.1 ++ schemeMark).length, scheme.2)
        | none => (hostPort host port ++ slash :: rest, false) := rfl
    rw [hsplit, hnone]
    rfl

theorem isAny_of_isURIChar {b : UInt8} (h : isURIChar b = true) : isAny b = true := by
  by_contra hnot
  have hend : b = 0x0A ∨ b = 0x0D := by simpa [isAny, or_iff_not_imp_left] using hnot
  rcases hend with rfl | rfl <;> exact absurd h (by decide)

theorem parseURL_composed {rest : Bytes} (hhost : ∀ b ∈ host, isHostOctet b = true)
    (hport : ∀ digits ∈ port, IsPortText digits) (hrest : ∀ b ∈ rest, isURIChar b = true) :
    HTTP.parseURL (composed scheme host port (slash :: rest)) true =
      (if hostPort host port = [] then some ([], [], 0)
        else (splitHost (hostPort host port)).map fun (name, digits) =>
          (name ++ digits.elim [] fun digits => 0x3A :: digits, name, digits.elim 0 readPort)).bind
      fun (hostName, _, number) =>
        if isSingle (slash :: rest) = false then none
        else some ⟨hostName, addressPort number (isSecureScheme scheme), slash :: rest,
          isSecureScheme scheme⟩ := by
  have hsegment := isSegment_hostPort hhost hport
  have hline : ∀ b ∈ slash :: rest, isAny b = true := by
    intro b hb
    rcases List.mem_cons.mp hb with rfl | hb
    · rfl
    · exact isAny_of_isURIChar (hrest b hb)
  have habsolute : isAbsoluteURI (slash :: rest) = isSingle (slash :: rest) := rfl
  rw [parseURL_split, splitScheme_composed hhost hport]
  dsimp only
  rw [dropWhile_run hsegment (stops_path rest), takeWhile_run hsegment (stops_path rest),
    if_pos hline, if_neg (List.cons_ne_nil _ _), habsolute]
  simp

theorem splitHost_host (hhost : ∀ b ∈ host, isHostOctet b = true) (hne : host ≠ []) :
    splitHost (hostPort host none) = some (host, none) := by
  have hstops : Stops isHostOctet ([] : Bytes) := by simp [Stops]
  have hisEmpty : ¬ host.isEmpty = true := by simpa using hne
  rw [splitHost, hostPort, Option.elim_none, takeWhile_run hhost hstops,
    dropWhile_run hhost hstops, if_neg hisEmpty]

theorem splitHost_port (hhost : ∀ b ∈ host, isHostOctet b = true) (digits : Bytes) :
    splitHost (hostPort host (some digits)) =
      if host ≠ [] ∧ digits.all isDigit = true ∧ 1 ≤ digits.length ∧ digits.length ≤ 5 then
        some (host, some digits) else none := by
  have hstops : Stops isHostOctet ((0x3A : UInt8) :: digits) := by
    rintro b ⟨⟩
    rfl
  rw [splitHost, hostPort, Option.elim_some, takeWhile_run hhost hstops,
    dropWhile_run hhost hstops]
  by_cases hne : host = []
  · simp [hne]
  · simp [hne, and_assoc]

theorem isPortText_decimal (number : ℕ) : IsPortText (decimal number) := by
  refine ⟨decimal_ne_nil number, fun h => ?_⟩
  have hslash : ¬ isDigit slash = true := by decide
  exact hslash (isDigit_of_mem_decimal h)

theorem decimal_length_le {number : ℕ} (h : number ≤ 65535) : (decimal number).length ≤ 5 := by
  rw [decimal]
  split_ifs
  · decide
  · rw [List.length_reverse, List.length_map, Nat.digits_length_le_iff (by decide)]
    omega

/-- A URL without two slashes in a row behind its host is taken apart into what it was composed of,
and a port that is not a number of up to five digits is rejected. -/
theorem parseURL_inverts (scheme : Option Scheme) (host rest : Bytes)
    (hhost : ∀ b ∈ host, isHostOctet b = true) (hrest : ∀ b ∈ rest, isURIChar b = true) :
    (isSingle (slash :: rest) = true → ∀ port : Option ℕ, (host ≠ [] ∨ port = none) →
      (∀ number ∈ port, 1 ≤ number ∧ number ≤ 65535) →
        parseURL (composed scheme host (port.map decimal) (slash :: rest)) true =
          .ok (some {
            hostName := hostPort host (port.map decimal)
            port := port.getD (if isSecureScheme scheme then 443 else 80)
            URI := slash :: rest
            useSSL := isSecureScheme scheme })) ∧
    ∀ digits, IsPortText digits → ¬ (digits.all isDigit = true ∧ digits.length ≤ 5) →
      parseURL (composed scheme host (some digits) (slash :: rest)) true = .ok none := by
  constructor
  · intro hsingle port hsome hrange
    have htexts : ∀ digits ∈ port.map decimal, IsPortText digits := by
      intro digits hdigits
      obtain ⟨number, -, rfl⟩ := Option.mem_map.mp hdigits
      exact isPortText_decimal number
    rw [parseURL_eq, parseURL_composed hhost htexts hrest]
    cases port with
    | none =>
      by_cases hne : host = []
      · subst hne
        simp [hostPort, hsingle, addressPort]
      · have hhostPort : hostPort host none ≠ [] := by simpa [hostPort] using hne
        rw [Option.map_none, if_neg hhostPort, splitHost_host hhost hne]
        simp [hostPort, hsingle, addressPort]
    | some number =>
      obtain ⟨hone, hlast⟩ := hrange number rfl
      have hne : host ≠ [] := hsome.resolve_right (Option.some_ne_none number)
      have hhostPort : hostPort host (some (decimal number)) ≠ [] := by simp [hostPort]
      have hdigits : (decimal number).all isDigit = true :=
        List.all_eq_true.mpr fun b hb => isDigit_of_mem_decimal hb
      have hlength : 1 ≤ (decimal number).length := List.length_pos_iff.mpr (decimal_ne_nil number)
      have hport : readPort (decimal number) = number := by
        rw [readPort, decimalValue_decimal, min_eq_left hlast]
      have hpos : number ≠ 0 := Nat.one_le_iff_ne_zero.mp hone
      rw [Option.map_some, if_neg hhostPort, splitHost_port hhost,
        if_pos ⟨hne, hdigits, hlength, decimal_length_le hlast⟩]
      simp [hostPort, hsingle, addressPort, hport, hpos]
  · intro digits htext hnot
    have htexts : ∀ digits' ∈ some digits, IsPortText digits' := by
      rintro digits' ⟨⟩
      exact htext
    have hhostPort : hostPort host (some digits) ≠ [] := by simp [hostPort]
    rw [parseURL_eq, parseURL_composed hhost htexts hrest, if_neg hhostPort, splitHost_port hhost,
      if_neg fun h => hnot ⟨h.2.1, h.2.2.2⟩]
    rfl

/-- A port, and a path with a query. -/
theorem parseURL_inverts_query :
    parseURL (composed (some .https) (text "host") ((some 8443).map decimal) (text "/a?b=/c:d")) true =
      .ok (some ⟨text "host:8443", 8443, text "/a?b=/c:d", true⟩) := by
  have hhost : (text "host").all isHostOctet = true := rfl
  have hrest : (text "a?b=/c:d").all isURIChar = true := rfl
  have hparts := (parseURL_inverts (some .https) (text "host") (text "a?b=/c:d")
    (List.all_eq_true.mp hhost) (List.all_eq_true.mp hrest)).1 rfl (some 8443)
    (.inl (by decide)) (by rintro number ⟨⟩; decide)
  exact hparts

/-- Two slashes in a row in a query are rejected, and a port that does not fit is cut off. -/
theorem parseURL_query_rejected :
    parseURL (composed (some .http) (text "h") none (text "/?u=//")) true = .ok none ∧
      parseURL (composed (some .http) (text "h") (some (text "65536")) (text "/")) true =
        .ok (some ⟨text "h:65536", 65535, text "/", false⟩) := by
  rw [parseURL_eq, parseURL_eq]
  constructor <;> decide +kernel

end Composed

end ACENetwork.HTTP.URLPatterns
