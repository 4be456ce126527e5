import ACENetwork.HTTP.Headers
import ACENetwork.HTTP.Record
import ACENetwork.Library.Joined

/-!
# The HTTP streamer

`HTTP_Module_Streamer_T::handleDataMessage` writes the head of a message, and the form data of a
`POST` request behind it. The headers are written in three walks through the map, one for each
class of names, and those that belong to messages of the other direction in none.
-/
namespace ACENetwork.HTTP.Streamer
open BitTorrent (Fault)
open Library Library.HashTable

/-- The order in which the entries of an unordered map are visited. -/
structure Traversal (α : Type*) where
  order : List α → List α
  perm : ∀ l, (order l).Perm l

def Traversal.insertion (α : Type*) : Traversal α := ⟨id, fun _ => .refl _⟩

abbrev Field := Bytes × Bytes

/-- What a record holds of a message to be sent. -/
structure Outgoing where
  form : List Field := []
  headers : List Field := []
  method : Method := .invalid
  status : ℕ := statusInvalid
  uri : Bytes := []
  version : Version := .invalid

section Texts

def crlf : Bytes := [0x0D, 0x0A]

def methodToString : Method → Bytes
  | .get => text "GET"
  | .post => text "POST"
  | .head => text "HEAD"
  | .mSearch => text "M-SEARCH"
  | .notify => text "NOTIFY"
  | .invalid => text "INVALID/UNKNOWN"

/-- A version that is not in the table is written as `HTTP/INVALID/UNKNOWN`. -/
def versionToString : Version → Bytes
  | .v0_9 => text "0.9"
  | .v1_0 => text "1.0"
  | .v1_1 => text "1.1"
  | .v2 => text "2"
  | _ => text "INVALID/UNKNOWN"

def statusToReason (status : ℕ) : Bytes :=
  match status with
  | 200 => text "OK"
  | 201 => text "Created"
  | 202 => text "Accepted"
  | 204 => text "No Content"
  | 300 => text "Multiple Choices"
  | 301 => text "Moved Permanently"
  | 302 => text "Moved Temporarily"
  | 304 => text "Not Modified"
  | 400 => text "Bad Request"
  | 401 => text "Unauthorized"
  | 403 => text "Forbidden"
  | 404 => text "Not Found"
  | 500 => text "Internal Server Error"
  | 501 => text "Not Implemented"
  | 502 => text "Bad Gateway"
  | 503 => text "Service Unavailable"
  | _ => text "INVALID/UNKNOWN"

inductive HeaderType where
  | general
  | request
  | response
  | entity
  deriving DecidableEq, Repr

def generalNames : List Bytes := [text "Date", text "Pragma"]

def requestNames : List Bytes :=
  [text "Authorization", text "From", text "If-Modified-Since", text "Referer", text "User-Agent"]

def responseNames : List Bytes := [text "Location", text "Server", text "WWW-Authenticate"]

def entityNames : List Bytes :=
  [text "Allow", text "Content-Encoding", text "Content-Length", text "Content-Type",
    text "Expires", text "Last-Modified"]

def isHeaderType (fieldName : Bytes) : HeaderType → Bool
  | .general => generalNames.contains fieldName
  | .request => requestNames.contains fieldName
  | .response => responseNames.contains fieldName
  | .entity => entityNames.contains fieldName ||
      (!generalNames.contains fieldName && !requestNames.contains fieldName &&
        !responseNames.contains fieldName)

end Texts

section Record
variable (r : Outgoing)

def Outgoing.isRequest : Bool := r.method != .invalid

def Outgoing.posts : Bool := r.method == .post && r.form != []

def versionText : Bytes := text "HTTP/" ++ versionToString r.version

/-- The form data behind the URI, each followed by an ampersand. -/
def queryText : Bytes := r.form.flatMap fun p => p.1 ++ text "=" ++ p.2 ++ text "&"

def requestLine : Bytes :=
  let buffer := methodToString r.method ++ text " " ++ r.uri
  let buffer :=
    match r.method with
    | .get =>
      let buffer := buffer ++ (if r.form = [] then [] else text "?") ++ queryText r
      (if r.form = [] then buffer else buffer.dropLast) ++ text " " ++ versionText r
    | .post => buffer ++ text " " ++ versionText r
    | _ => buffer
  buffer ++ crlf

def statusLine : Bytes :=
  versionText r ++ text " " ++ decimal r.status ++ text " " ++ statusToReason r.status ++ crlf

def contentBuffer : Bytes :=
  if r.posts then
    (r.form.flatMap fun p =>
      p.1 ++ (if p.2 = [] then [] else text "=" ++ p.2) ++ text "&").dropLast
  else []

def contentLength : Bytes := text "Content-Length"
def contentType : Bytes := text "Content-Type"
def urlEncoded : Bytes := text "application/x-www-form-urlencoded"

end Record

section Streamer
variable {hash : Bytes → UInt64} (t : Traversal Field) (c : Comparison ciKey hash) (r : Outgoing)

/-- A header is inserted if it is missing, and gets a value if it has none. -/
def supply (headers : List Field) (name value : Bytes) : List Field :=
  put c headers { key := name, value := value, stores := fun found => found.all List.isEmpty }

def supplied : List Field :=
  if r.posts then
    supply c (supply c r.headers contentLength (decimal (contentBuffer r).length)) contentType
      urlEncoded
  else r.headers

def fieldLine (f : Field) : Bytes := f.1 ++ text ": " ++ f.2 ++ crlf

def pass (headers : List Field) (type : HeaderType) : Bytes :=
  ((t.order headers).filter fun f => isHeaderType f.1 type).flatMap fieldLine

def buffer : Bytes :=
  (if r.isRequest then requestLine r else statusLine r) ++
    pass t (supplied c r) .general ++
    pass t (supplied c r) (if r.isRequest then .request else .response) ++
    pass t (supplied c r) .entity ++ crlf

/-- `HTTP_Module_Streamer_T::handleDataMessage` for a message block with some octets and room for
others: the octets that it appends, if the message is passed on. -/
def handleDataMessage (length space : ℕ) : Except Fault (Option Bytes) :=
  if length ≠ 0 then .error .assertion
  else if space < (buffer t c r).length then .ok none
  else if contentBuffer r = [] then .ok (some (buffer t c r))
  else if space - (buffer t c r).length < (contentBuffer r).length then .ok none
  else .ok (some (buffer t c r ++ contentBuffer r))

end Streamer

section Grammar

def isTokenChar (b : UInt8) : Bool :=
  0x20 < b && b < 0x7F && !(text "()<>@,;:\\\"/[]?=\x7b\x7d").contains b

/-- A name that is a token, and a value on one line. -/
structure IsField (f : Field) : Prop where
  nonempty : f.1 ≠ []
  token : ∀ b ∈ f.1, isTokenChar b = true
  value : ∀ b ∈ f.2, isLineEnd b = false

def Unbroken (s : Bytes) : Prop := ∀ b ∈ s, isLineEnd b = false

def Blankless (s : Bytes) : Prop := ∀ b ∈ s, isSpace b = false

variable (r : Outgoing)

/-- The URI, with the form data of a `GET` request. -/
def target : Bytes :=
  r.uri ++
    if r.method = .get ∧ r.form ≠ [] then
      text "?" ++ joined '&'.toUInt8 (r.form.map fun p => p.1 ++ text "=" ++ p.2)
    else []

/-- The form data of a `POST` request; a name without a value has no equals sign. -/
def formData : Bytes :=
  joined '&'.toUInt8 (r.form.map fun p => p.1 ++ if p.2 = [] then [] else text "=" ++ p.2)

def startLine : Bytes :=
  if r.isRequest then methodToString r.method ++ text " " ++ target r ++ text " " ++ versionText r
  else versionText r ++ text " " ++ decimal r.status ++ text " " ++ statusToReason r.status

/-- A message: the line that it begins with, fields, an empty line, and a body. -/
structure IsMessage (fields : List Field) (body text : Bytes) : Prop where
  text_eq : text = startLine r ++ crlf ++ fields.flatMap fieldLine ++ crlf ++ body
  unbroken : Unbroken (startLine r)
  target_blankless : r.isRequest = true → Blankless (target r)
  isField : ∀ f ∈ fields, IsField f

def isContentLength (f : Field) : Bool := ciKey f.1 == ciKey contentLength

def isOpposite (fieldName : Bytes) : Bool :=
  isHeaderType fieldName (if r.isRequest then .response else .request)

end Grammar

section Lines
variable {r : Outgoing}

theorem dropLast_flatMap_sep {sep : UInt8} {parts : List Bytes} (h : parts ≠ []) :
    (parts.flatMap (· ++ [sep])).dropLast = joined sep parts := by
  rw [← joined_append_sep h, List.dropLast_concat]

theorem contentBuffer_of_posts (h : r.posts = true) : contentBuffer r = formData r := by
  have hform : r.form ≠ [] := by
    rintro hnil
    rw [Outgoing.posts, hnil] at h
    simp at h
  have hparts : r.form.map (fun p => p.1 ++ if p.2 = [] then [] else text "=" ++ p.2) ≠ [] := by
    simpa using hform
  rw [contentBuffer, if_pos h, formData, ← dropLast_flatMap_sep hparts, List.flatMap_map]
  rfl

theorem queryText_ne_nil (h : r.form ≠ []) : queryText r ≠ [] := by
  obtain ⟨p, form, hform⟩ := List.exists_cons_of_ne_nil h
  rw [queryText, hform, List.flatMap_cons]
  exact List.append_ne_nil_of_left_ne_nil (List.append_ne_nil_of_right_ne_nil _ (by decide)) _

theorem queryText_dropLast (h : r.form ≠ []) :
    (queryText r).dropLast =
      joined '&'.toUInt8 (r.form.map fun p => p.1 ++ text "=" ++ p.2) := by
  have hparts : r.form.map (fun p => p.1 ++ text "=" ++ p.2) ≠ [] := by simpa using h
  rw [← dropLast_flatMap_sep hparts, List.flatMap_map]
  rfl

theorem requestLine_get (h : r.method = .get) : requestLine r = startLine r ++ crlf := by
  have hrequest : r.isRequest = true := by
    rw [Outgoing.isRequest, h]
    rfl
  rw [startLine, if_pos hrequest, requestLine, h]
  by_cases hform : r.form = []
  · simp [hform, target, queryText]
  · have htarget : target r = r.uri ++ (text "?" ++ (queryText r).dropLast) := by
      rw [target, if_pos ⟨h, hform⟩, queryText_dropLast hform]
    simp only [hform, if_false]
    rw [htarget, List.dropLast_append_of_ne_nil (queryText_ne_nil hform)]
    simp only [List.append_assoc]

theorem requestLine_post (h : r.method = .post) : requestLine r = startLine r ++ crlf := by
  have hrequest : r.isRequest = true := by
    rw [Outgoing.isRequest, h]
    rfl
  have htarget : target r = r.uri := by
    rw [target, if_neg (by simp [h]), List.append_nil]
  rw [startLine, if_pos hrequest, requestLine, h, htarget]

theorem statusLine_eq (h : r.isRequest = false) : statusLine r = startLine r ++ crlf := by
  rw [startLine, if_neg (by simp [h]), statusLine]

end Lines

section Headers
variable {hash : Bytes → UInt64} {c : Comparison ciKey hash} {headers : List Field}
  {name value : Bytes} {f : Field}

/-- The headers without one that has the name and no value. -/
def kept (c : Comparison ciKey hash) (headers : List Field) (name : Bytes) : List Field :=
  if find c headers name = some [] then
    headers.eraseP fun f => c.sees (headers.map Prod.fst) f.1 name
  else headers

theorem mem_of_mem_kept (h : f ∈ kept c headers name) : f ∈ headers := by
  rw [kept] at h
  split_ifs at h
  · exact List.mem_of_mem_eraseP h
  · exact h

theorem mem_replace_eraseP {taken : Bytes → Bool} (h : f ∈ replace taken value headers) :
    f ∈ headers.eraseP (fun f => taken f.1) ∨ f.2 = value ∧ taken f.1 = true := by
  induction headers with
  | nil => simp [replace] at h
  | cons first headers ih =>
    rw [replace] at h
    rw [List.eraseP_cons]
    by_cases htaken : taken first.1 = true
    · rw [if_pos htaken] at h
      rw [htaken, cond_true]
      rcases List.mem_cons.mp h with rfl | hrest
      · exact .inr ⟨rfl, htaken⟩
      · exact .inl hrest
    · rw [if_neg htaken] at h
      rw [Bool.eq_false_iff.mpr htaken, cond_false]
      rcases List.mem_cons.mp h with rfl | hrest
      · exact .inl List.mem_cons_self
      · exact (ih hrest).imp_left (List.mem_cons_of_mem first)

theorem mem_supply (h : f ∈ supply c headers name value) :
    f ∈ kept c headers name ∨ f.2 = value ∧ ciKey f.1 = ciKey name := by
  rw [supply, put] at h
  dsimp only at h
  cases hfind : find c headers name with
  | none =>
    rw [hfind] at h
    rw [kept, hfind, if_neg (by simp)]
    rcases List.mem_append.mp h with hold | hnew
    · exact .inl hold
    · obtain rfl := List.mem_singleton.mp hnew
      exact .inr ⟨rfl, rfl⟩
  | some found =>
    rw [hfind] at h
    rw [kept, hfind]
    by_cases hempty : found = []
    · subst hempty
      rw [if_pos rfl]
      refine (mem_replace_eraseP h).imp_right fun hnew => ⟨hnew.1, ?_⟩
      exact c.sound _ _ _ hnew.2
    · rw [if_neg (by simpa using hempty)]
      rw [if_neg (by simpa using hempty)] at h
      exact .inl h

theorem isField_supply (hheaders : ∀ f ∈ headers, IsField f) (hnew : IsField (name, value)) :
    ∀ f ∈ supply c headers name value, IsField f := by
  intro f hf
  rcases mem_put c hf with hold | ⟨hvalue, hname | ⟨⟨f', hf', hname⟩, -⟩⟩
  · exact hheaders f hold
  · exact ⟨hname ▸ hnew.nonempty, hname ▸ hnew.token, hvalue ▸ hnew.value⟩
  · exact ⟨hname ▸ (hheaders f' hf').nonempty, hname ▸ (hheaders f' hf').token,
      hvalue ▸ hnew.value⟩

theorem replace_keys (taken : Bytes → Bool) (value : Bytes) (headers : List Field) :
    (replace taken value headers).map Prod.fst = headers.map Prod.fst := by
  induction headers with
  | nil => rfl
  | cons first headers ih =>
    rw [replace]
    split_ifs
    · rfl
    · rw [List.map_cons, List.map_cons, ih]

theorem key_supply {key : Bytes} (h : key ∈ headers.map Prod.fst) :
    key ∈ (supply c headers name value).map Prod.fst := by
  rw [supply, put]
  split_ifs
  · rw [replace_keys]
    exact h
  · rw [List.map_append]
    exact List.mem_append_left _ h
  · exact h

theorem exists_supply : ∃ key ∈ (supply c headers name value).map Prod.fst,
    ciKey key = ciKey name := by
  cases hfind : find c headers name with
  | none =>
    refine ⟨name, ?_, rfl⟩
    rw [supply, put]
    dsimp only
    rw [hfind]
    simp
  | some found =>
    obtain ⟨f, hf, -⟩ := Option.map_eq_some_iff.mp hfind
    have hsees := List.find?_some hf
    refine ⟨f.1, key_supply (List.mem_map_of_mem (List.mem_of_find?_eq_some hf)), ?_⟩
    exact c.sound _ _ _ hsees

end Headers

section Classes

theorem filter_append_filter_perm {α : Type*} {p q : α → Bool}
    (h : ∀ a, p a = true → q a = false) (l : List α) :
    (l.filter p ++ l.filter q).Perm (l.filter fun a => p a || q a) := by
  induction l with
  | nil => exact .nil
  | cons a l ih =>
    cases hp : p a with
    | true =>
      have hq := h a hp
      simpa [hp, hq] using ih
    | false =>
      cases hq : q a with
      | true =>
        simp only [List.filter_cons, hp, hq, Bool.or_true, if_true, Bool.false_eq_true, if_false]
        exact List.perm_middle.trans (ih.cons a)
      | false => simpa [hp, hq] using ih

theorem nodup_names :
    (generalNames ++ requestNames ++ responseNames ++ entityNames).Nodup := by
  decide +kernel

theorem isHeaderType_unique {fieldName : Bytes} {type type' : HeaderType} (hne : type ≠ type')
    (h : isHeaderType fieldName type = true) : isHeaderType fieldName type' = false := by
  have hnames := nodup_names
  simp only [List.nodup_append, List.mem_append] at hnames
  obtain ⟨⟨⟨-, -, hgeneral⟩, -, hresponse⟩, -, hentity⟩ := hnames
  rw [Bool.eq_false_iff]
  intro h'
  cases type <;> cases type' <;>
    simp only [isHeaderType, Bool.or_eq_true, Bool.and_eq_true, Bool.not_eq_true',
      List.contains_iff_mem, Bool.eq_false_iff, ne_eq] at h h' <;>
    grind

theorem isHeaderType_total (fieldName : Bytes) :
    isHeaderType fieldName .general = true ∨ isHeaderType fieldName .request = true ∨
      isHeaderType fieldName .response = true ∨ isHeaderType fieldName .entity = true := by
  simp only [isHeaderType]
  cases generalNames.contains fieldName <;> cases requestNames.contains fieldName <;>
    cases responseNames.contains fieldName <;> simp

theorem isHeaderType_written (r : Outgoing) (fieldName : Bytes) :
    (isHeaderType fieldName .general ||
        isHeaderType fieldName (if r.isRequest then .request else .response) ||
        isHeaderType fieldName .entity) = !isOpposite r fieldName := by
  have htotal := isHeaderType_total fieldName
  rw [isOpposite]
  cases r.isRequest <;> simp only [Bool.false_eq_true, if_false, if_true]
  · cases hopposite : isHeaderType fieldName .request with
    | true =>
      rw [isHeaderType_unique (by decide) hopposite, isHeaderType_unique (by decide) hopposite,
        isHeaderType_unique (by decide) hopposite]
      rfl
    | false =>
      rw [hopposite] at htotal
      rcases htotal with h | h | h | h
      · simp [h]
      · cases h
      · simp [h]
      · simp [h]
  · cases hopposite : isHeaderType fieldName .response with
    | true =>
      rw [isHeaderType_unique (by decide) hopposite, isHeaderType_unique (by decide) hopposite,
        isHeaderType_unique (by decide) hopposite]
      rfl
    | false =>
      rw [hopposite] at htotal
      rcases htotal with h | h | h | h
      · simp [h]
      · simp [h]
      · cases h
      · simp [h]

def written (t : Traversal Field) (r : Outgoing) (headers : List Field) : List Field :=
  (t.order headers).filter (fun f => isHeaderType f.1 .general) ++
    (t.order headers).filter
      (fun f => isHeaderType f.1 (if r.isRequest then .request else .response)) ++
    (t.order headers).filter (fun f => isHeaderType f.1 .entity)

theorem written_perm (t : Traversal Field) (r : Outgoing) (headers : List Field) :
    (written t r headers).Perm (headers.filter fun f => !isOpposite r f.1) := by
  have hown : (if r.isRequest then HeaderType.request else .response) ≠ .general ∧
      (if r.isRequest then HeaderType.request else .response) ≠ .entity := by
    cases r.isRequest <;> decide
  have hfirst := filter_append_filter_perm
    (p := fun f : Field => isHeaderType f.1 .general)
    (q := fun f => isHeaderType f.1 (if r.isRequest then .request else .response))
    (fun f hf => isHeaderType_unique hown.1.symm hf) (t.order headers)
  have hboth := filter_append_filter_perm
    (p := fun f : Field => isHeaderType f.1 .general ||
      isHeaderType f.1 (if r.isRequest then .request else .response))
    (q := fun f => isHeaderType f.1 .entity)
    (fun f hf => by
      rcases Bool.or_eq_true_iff.mp hf with hgeneral | hother
      · exact isHeaderType_unique (by decide) hgeneral
      · exact isHeaderType_unique hown.2 hother)
    (t.order headers)
  have hwritten : (t.order headers).filter (fun f => isHeaderType f.1 .general ||
      isHeaderType f.1 (if r.isRequest then .request else .response) ||
      isHeaderType f.1 .entity) = (t.order headers).filter fun f => !isOpposite r f.1 :=
    List.filter_congr fun f _ => isHeaderType_written r f.1
  refine ((hfirst.append_right _).trans hboth).trans ?_
  rw [hwritten]
  exact (t.perm headers).filter _

end Classes

section Results
variable {hash : Bytes → UInt64} {t : Traversal Field} {c : Comparison ciKey hash} {r : Outgoing}

theorem buffer_eq (hline : (if r.isRequest then requestLine r else statusLine r) =
    startLine r ++ crlf) :
    buffer t c r =
      startLine r ++ crlf ++ (written t r (supplied c r)).flatMap fieldLine ++ crlf := by
  rw [buffer, hline, written, List.flatMap_append, List.flatMap_append]
  simp only [pass, List.append_assoc]

theorem unbroken_iff {s : Bytes} : Unbroken s ↔ (s.all fun b => !isLineEnd b) = true := by
  simp [Unbroken]

theorem isLineEnd_iff {b : UInt8} : isLineEnd b = true ↔ b = 0x0A ∨ b = 0x0D := by
  simp [isLineEnd]

theorem unbroken_decimal (n : ℕ) : Unbroken (decimal n) := by
  intro b hb
  have hdigit := isDigit_of_mem_decimal hb
  rw [Bool.eq_false_iff]
  intro hend
  rcases isLineEnd_iff.1 hend with rfl | rfl <;> cases hdigit

theorem isField_supplied (h : ∀ f ∈ r.headers, IsField f) : ∀ f ∈ supplied c r, IsField f := by
  have hname : contentLength.all isTokenChar = true ∧ contentType.all isTokenChar = true ∧
      (urlEncoded.all fun b => !isLineEnd b) = true := ⟨rfl, rfl, rfl⟩
  have hlength : IsField (contentLength, decimal (contentBuffer r).length) :=
    ⟨(by decide : contentLength ≠ []), List.all_eq_true.mp hname.1, unbroken_decimal _⟩
  have htype : IsField (contentType, urlEncoded) :=
    ⟨by decide, List.all_eq_true.mp hname.2.1, unbroken_iff.2 hname.2.2⟩
  rw [supplied]
  split_ifs
  · exact isField_supply (isField_supply h hlength) htype
  · exact h

theorem contentLength_ne_contentType : ciKey contentLength ≠ ciKey contentType := fun h =>
  absurd (congrArg List.length h) (by decide : 14 ≠ 12)

theorem contentLength_supplied (hposts : r.posts = true) {f : Field} (hf : f ∈ supplied c r)
    (hlength : isContentLength f = true) :
    f.2 = decimal (contentBuffer r).length ∨ f ∈ kept c r.headers contentLength := by
  have hkey : ciKey f.1 = ciKey contentLength := beq_iff_eq.mp hlength
  rw [supplied, if_pos hposts] at hf
  rcases mem_supply hf with hold | ⟨-, htype⟩
  · rcases mem_supply (mem_of_mem_kept hold) with hkept | ⟨hvalue, -⟩
    · exact .inr hkept
    · exact .inl hvalue
  · exact absurd (hkey.symm.trans htype) contentLength_ne_contentType

theorem exists_contentLength (hposts : r.posts = true) :
    ∃ f ∈ supplied c r, isContentLength f = true ∧ isOpposite r f.1 = false := by
  obtain ⟨key, hkey, hfold⟩ :
      ∃ key ∈ (supply c r.headers contentLength (decimal (contentBuffer r).length)).map Prod.fst,
        ciKey key = ciKey contentLength := exists_supply
  have hkept : key ∈ (supplied c r).map Prod.fst := by
    rw [supplied, if_pos hposts]
    exact key_supply hkey
  obtain ⟨f, hf, rfl⟩ := List.mem_map.mp hkept
  refine ⟨f, hf, beq_iff_eq.mpr hfold, ?_⟩
  have hnames : ∀ name ∈ requestNames ++ responseNames, ciKey name ≠ ciKey contentLength := by
    decide +kernel
  have hnot : f.1 ∉ requestNames ++ responseNames := fun h => hnames f.1 h hfold
  simp only [List.mem_append, not_or] at hnot
  rw [isOpposite]
  cases r.isRequest <;> simp [isHeaderType, hnot]

theorem handleDataMessage_of_room {space : ℕ}
    (h : (buffer t c r).length + (contentBuffer r).length ≤ space) :
    handleDataMessage t c r 0 space = .ok (some (buffer t c r ++ contentBuffer r)) := by
  rw [handleDataMessage, if_neg (by decide), if_neg (by omega)]
  split_ifs with hcontent
  · rw [hcontent, List.append_nil]
  · omega
  · rfl

theorem isLineEnd_of_isSpace {b : UInt8} (h : isSpace b = false) : isLineEnd b = false := by
  rw [Bool.eq_false_iff]
  intro hend
  rcases isLineEnd_iff.1 hend with rfl | rfl <;> cases h

theorem unbroken_append {s s' : Bytes} (h : Unbroken s) (h' : Unbroken s') : Unbroken (s ++ s') :=
  fun b hb => (List.mem_append.mp hb).elim (h b) (h' b)

theorem unbroken_versionText : Unbroken (versionText r) := by
  have hversion : ([Version.v0_9, .v1_0, .v1_1, .v2, .v3, .invalid].all fun version =>
      (text "HTTP/" ++ versionToString version).all fun b => !isLineEnd b) = true := rfl
  refine unbroken_iff.2 (List.all_eq_true.mp hversion r.version ?_)
  cases r.version <;> simp

theorem unbroken_statusToReason (status : ℕ) : Unbroken (statusToReason status) := by
  rw [unbroken_iff]
  unfold statusToReason
  split <;> rfl

theorem blankless_target (huri : Blankless r.uri)
    (hform : r.method = .get → ∀ p ∈ r.form, Blankless p.1 ∧ Blankless p.2) :
    Blankless (target r) := by
  intro b hb
  rw [target] at hb
  split_ifs at hb with hget
  · rcases List.mem_append.mp hb with hb | hb
    · exact huri b hb
    rcases List.mem_append.mp hb with hb | hb
    · obtain rfl := List.mem_singleton.mp hb
      rfl
    rcases mem_joined hb with rfl | ⟨part, hpart, hb⟩
    · decide
    obtain ⟨p, hp, rfl⟩ := List.mem_map.mp hpart
    have hpair := hform hget.1 p hp
    rcases List.mem_append.mp hb with hb | hb
    · rcases List.mem_append.mp hb with hb | hb
      · exact hpair.1 b hb
      · obtain rfl := List.mem_singleton.mp hb
        rfl
    · exact hpair.2 b hb
  · exact huri b (by simpa using hb)

theorem unbroken_startLine (htarget : r.isRequest = true → Blankless (target r)) :
    Unbroken (startLine r) := by
  have hblank : Unbroken (text " ") := unbroken_iff.2 rfl
  have hmethod : ([Method.get, .post, .head, .mSearch, .notify, .invalid].all fun method =>
      (methodToString method).all fun b => !isLineEnd b) = true := rfl
  rw [startLine]
  split_ifs with hrequest
  · refine unbroken_append (unbroken_append (unbroken_append (unbroken_append ?_ hblank) ?_)
      hblank) unbroken_versionText
    · refine unbroken_iff.2 (List.all_eq_true.mp hmethod r.method ?_)
      cases r.method <;> simp
    · exact fun b hb => isLineEnd_of_isSpace (htarget hrequest b hb)
  · exact unbroken_append (unbroken_append (unbroken_append (unbroken_append
      unbroken_versionText hblank) (unbroken_decimal r.status)) hblank) (unbroken_statusToReason r.status)

/-- A `GET` or `POST` request and a response are written as a message, with the headers that are
not of the other direction; a request that posts its form has the form data as its body. -/
theorem isMessage_written (t : Traversal Field) (c : Comparison ciKey hash) (r : Outgoing)
    (space : ℕ) (hmethod : r.method = .get ∨ r.method = .post ∨ r.isRequest = false)
    (huri : Blankless r.uri)
    (hform : r.method = .get → ∀ p ∈ r.form, Blankless p.1 ∧ Blankless p.2)
    (hheaders : ∀ f ∈ r.headers, IsField f)
    (hspace : (buffer t c r).length + (contentBuffer r).length ≤ space) :
    ∃ fields body text, handleDataMessage t c r 0 space = .ok (some text) ∧
      IsMessage r fields body text ∧
      fields.Perm ((supplied c r).filter fun f => !isOpposite r f.1) ∧
      (r.posts = false → body = []) ∧
      (r.posts = true → body = formData r ∧ (∃ f ∈ fields, isContentLength f = true) ∧
        ∀ f ∈ fields, isContentLength f = true →
          f.2 = decimal body.length ∨ f ∈ kept c r.headers contentLength) := by
  have hline : (if r.isRequest then requestLine r else statusLine r) = startLine r ++ crlf := by
    rcases hmethod with h | h | h
    · rw [if_pos (by simp [Outgoing.isRequest, h]), requestLine_get h]
    · rw [if_pos (by simp [Outgoing.isRequest, h]), requestLine_post h]
    · rw [if_neg (by simp [h]), statusLine_eq h]
  have hperm := written_perm t r (supplied c r)
  have htarget : r.isRequest = true → Blankless (target r) := fun _ => blankless_target huri hform
  refine ⟨written t r (supplied c r), contentBuffer r, _, handleDataMessage_of_room hspace,
    ⟨?_, unbroken_startLine htarget, htarget, ?_⟩, hperm, ?_, ?_⟩
  · rw [buffer_eq hline]
  · intro f hf
    exact isField_supplied hheaders f (List.mem_of_mem_filter (hperm.mem_iff.mp hf))
  · intro hposts
    rw [contentBuffer, if_neg (by simp [hposts])]
  · intro hposts
    refine ⟨contentBuffer_of_posts hposts, ?_, fun f hf => ?_⟩
    · obtain ⟨f, hf, hlength, hopposite⟩ := exists_contentLength (c := c) hposts
      refine ⟨f, hperm.mem_iff.mpr (List.mem_filter.mpr ⟨hf, ?_⟩), hlength⟩
      rw [hopposite]
      rfl
    · exact contentLength_supplied hposts (List.mem_of_mem_filter (hperm.mem_iff.mp hf))

theorem length_of_isMessage {fields headers : List Field} {body text : Bytes}
    (h : IsMessage r fields body text) (hperm : fields.Perm headers) :
    text.length = (startLine r).length + 4 + (headers.flatMap fieldLine).length + body.length := by
  have hfields := (hperm.flatMap_right fieldLine).length_eq
  have hcrlf : crlf.length = 2 := rfl
  rw [h.text_eq, ← hfields]
  simp only [List.length_append, hcrlf]
  omega

end Results

section Samples

def uniform : Comparison ciKey (fun _ : Bytes => (0 : UInt64)) := hashFirst ciKey fun _ => 0

/-- A form that is posted, with headers of each class, a server's one among them. -/
def sampleForm : Outgoing where
  form := [(text "a", text "b"), (text "c", text "d e")]
  headers := [(text "Content-Type", text "text/plain"), (text "Host", text "h"),
    (text "Server", text "x"), (text "Connection", text "close"), (text "X-Other", text "1")]
  method := .post
  uri := text "/"
  version := .v1_1

theorem isMessage_sampleForm : ∃ fields body message,
    handleDataMessage (.insertion Field) uniform sampleForm 0 256 = .ok (some message) ∧
      IsMessage sampleForm fields body message ∧
      fields.Perm ((supplied uniform sampleForm).filter fun f => !isOpposite sampleForm f.1) ∧
      body = text "a=b&c=d e" ∧ ∃ f ∈ fields, isContentLength f = true := by
  have huri : (sampleForm.uri.all fun b => !isSpace b) = true := rfl
  have hheader : (sampleForm.headers.all fun f => f.1 != [] && f.1.all isTokenChar &&
      f.2.all fun b => !isLineEnd b) = true := rfl
  simp only [List.all_eq_true, Bool.and_eq_true, Bool.not_eq_true', bne_iff_ne] at huri hheader
  obtain ⟨fields, body, message, hmessage, his, hperm, -, hposts⟩ :=
    isMessage_written (.insertion Field) uniform sampleForm 256 (.inr (.inl rfl)) huri nofun
      (fun f hf => ⟨(hheader f hf).1.1, (hheader f hf).1.2, (hheader f hf).2⟩) (by decide +kernel)
  obtain ⟨hbody, hlength, -⟩ := hposts rfl
  exact ⟨fields, body, message, hmessage, his, hperm, hbody.trans (by decide +kernel), hlength⟩

def sampleServer : Outgoing where
  headers := [(text "Server", text "x")]
  method := .get
  uri := text "/"
  version := .v1_1

/-- A request that posts three octets, and has a header with another length. -/
def samplePost : Outgoing where
  form := [(text "a", text "b")]
  headers := [(text "Content-Length", text "7")]
  method := .post
  uri := text "/"
  version := .v1_1

/-- A header of the other direction is not written, and a length that is there is kept. -/
theorem not_isMessage_samples :
    (¬ ∃ fields body text,
      handleDataMessage (.insertion Field) uniform sampleServer 0 256 = .ok (some text) ∧
        IsMessage sampleServer fields body text ∧ fields.Perm (supplied uniform sampleServer)) ∧
    ¬ ∃ fields body text,
      handleDataMessage (.insertion Field) uniform samplePost 0 256 = .ok (some text) ∧
        IsMessage samplePost fields body text ∧ fields.Perm (supplied uniform samplePost) ∧
        ∀ f ∈ fields, isContentLength f = true → f.2 = decimal body.length := by
  constructor
  · rintro ⟨fields, body, text, hmessage, his, hperm⟩
    have hlength := length_of_isMessage his hperm
    have hsent : (handleDataMessage (.insertion Field) uniform sampleServer 0 256).toOption.map
        (Option.map List.length) = some (some 18) := by decide +kernel
    have hline : (startLine sampleServer).length = 14 ∧
        ((supplied uniform sampleServer).flatMap fieldLine).length = 11 := by decide +kernel
    rw [hmessage] at hsent
    have heq : text.length = 18 := by simpa [Except.toOption] using hsent
    omega
  · rintro ⟨fields, body, text, hmessage, his, hperm, hvalue⟩
    have hlength := length_of_isMessage his hperm
    have hsent : (handleDataMessage (.insertion Field) uniform samplePost 0 256).toOption.map
        (Option.map List.length) = some (some 90) := by decide +kernel
    have hline : (startLine samplePost).length = 15 ∧
        ((supplied uniform samplePost).flatMap fieldLine).length = 68 := by decide +kernel
    rw [hmessage] at hsent
    have heq : text.length = 90 := by simpa [Except.toOption] using hsent
    have hin : (Library.text "Content-Length", Library.text "7") ∈ supplied uniform samplePost ∧
        isContentLength (Library.text "Content-Length", Library.text "7") = true := by decide +kernel
    have hseven := hvalue _ (hperm.mem_iff.mpr hin.1) hin.2
    have hbody := congrArg decimalValue hseven
    rw [decimalValue_decimal] at hbody
    have hnumber : decimalValue (Library.text "7") = 7 := by decide +kernel
    have : body.length = 7 := hbody.symm.trans hnumber
    omega

end Samples

end ACENetwork.HTTP.Streamer
