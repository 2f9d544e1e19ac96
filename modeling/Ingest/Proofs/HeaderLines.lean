import Mathlib
import Ingest.Http.Client
import Ingest.Proofs.Settings
import Ingest.Proofs.Text

/-!
# Headers as lines

A header is sent as one line, and a response's headers are read from lines. The reading undoes the
writing: lines that were sent come out as the headers they were sent for, whatever line ends stand
behind them and whatever lines without a colon arrive among them (`Arrives.foldl_receiveLine`). A
status line forgets all that arrived before it, so that only the last response counts
(`received_as_sent`).
-/

namespace Ingest.Http

namespace Headers

/-- The characters that may end a line. -/
def isLineEnd (c : Char) : Bool :=
  c == '\n' || c == '\r'

/-- What the first line of a response begins with. -/
def statusMark : List Char :=
  "HTTP/".toList

/-- A line without a colon that begins no response. -/
structure Idle (line : String) : Prop where
  colon : ':' ∉ line.toList
  status : ¬statusMark <+: line.toList

/-- A header whose line says nothing else than the header. -/
structure Legible (h : String × String) : Prop where
  plainName : Plain h.1
  plainValue : Plain h.2
  name : ':' ∉ h.1.toList
  status : ¬statusMark <+: (line h).toList
  start : ∀ c ∈ h.2.toList.head?, c ≠ ' ' ∧ c ≠ '\t'
  last : ∀ c ∈ h.2.toList.getLast?, isLineEnd c = false

/-- Lines arrive as they were sent, in order, each with some line ends behind it. There may be idle
lines among them. -/
inductive Arrives : List String → List String → Prop where
  | nil : Arrives [] []
  | idle {sent raw : List String} {line : String} (hline : Idle line) (h : Arrives sent raw) :
    Arrives sent (line :: raw)
  | sent {sent raw : List String} (line ends : String)
    (hends : ∀ c ∈ ends.toList, isLineEnd c = true) (h : Arrives sent raw) :
    Arrives (line :: sent) ((line ++ ends) :: raw)

variable {h : String × String} {hs acc : Headers} {text ends : String} {raw : List String}

/-! ### Line ends -/

theorem chomp_eq (s : List Char) : chomp s = s.rdropWhile isLineEnd :=
  rfl

theorem chomp_prefix_self (s : List Char) : chomp s <+: s :=
  List.rdropWhile_prefix isLineEnd s

theorem chomp_append {s t : List Char} (ht : ∀ c ∈ t, isLineEnd c = true) :
    chomp (s ++ t) = chomp s := by
  rw [chomp_eq, List.rdropWhile, List.reverse_append,
    List.dropWhile_append_of_pos (by simpa using ht)]
  rfl

theorem chomp_eq_self {s : List Char} (hs : ∀ c ∈ s.getLast?, isLineEnd c = false) :
    chomp s = s := by
  refine List.rdropWhile_eq_self_iff.mpr fun hne => ?_
  exact Bool.eq_false_iff.mp (hs _ (List.getLast?_eq_getLast_of_ne_nil hne))

/-- The status mark has none of the characters that are dropped. -/
theorem statusMark_prefix_chomp_iff {s : List Char} :
    statusMark <+: chomp s ↔ statusMark <+: s := by
  refine ⟨fun h => h.trans (chomp_prefix_self s), ?_⟩
  rintro ⟨t, rfl⟩
  induction t using List.reverseRecOn with
  | nil =>
    rw [List.append_nil, chomp_eq_self (by simp [statusMark, isLineEnd])]
  | append_singleton t c ih =>
    rw [chomp_eq, ← List.append_assoc]
    by_cases hc : isLineEnd c
    · rwa [List.rdropWhile_concat_pos _ _ _ hc]
    · rw [List.rdropWhile_concat_neg _ _ _ hc, List.append_assoc]
      exact List.prefix_append _ _

/-! ### One line -/

theorem receiveLine_eq (hs : Headers) (text : String) : hs.receiveLine text =
    if statusMark <+: text.toList then [] else hs ++ (ofLine? (chomp text.toList)).toList := by
  have hstatus : "HTTP/".toList.isPrefixOf (chomp text.toList) = true ↔ statusMark <+: text.toList :=
    List.isPrefixOf_iff_prefix.trans statusMark_prefix_chomp_iff
  unfold receiveLine
  simp only [hstatus]
  split_ifs
  · rfl
  · cases ofLine? (chomp text.toList) <;> simp

theorem receiveLine_of_status (hstatus : statusMark <+: text.toList) : hs.receiveLine text = [] := by
  rw [receiveLine_eq, if_pos hstatus]

theorem receiveLine_of_idle (hidle : Idle text) : hs.receiveLine text = hs := by
  have hcolon : ':' ∉ chomp text.toList :=
    fun hmem => hidle.colon ((chomp_prefix_self text.toList).subset hmem)
  rw [receiveLine_eq, if_neg hidle.status, ofLine?, Text.cut_eq_none_iff.mpr hcolon]
  exact List.append_nil hs

theorem toList_line (h : String × String) :
    (line h).toList = h.1.toList ++ ':' :: ' ' :: h.2.toList := by
  simp [line]

/-- The line of a header as it is sent: up to the character with code 0. -/
def sentLine (h : String × String) : String :=
  untilNul (line h)

theorem lines_exchange (o : Client.Options) (r : Request) :
    (Client.exchange o r).lines = (r.headers.withDefaults o.defaults).map sentLine :=
  rfl

namespace Legible

theorem sentLine_eq (hlegible : Legible h) : sentLine h = line h := by
  have hname : '\x00' ∉ h.1.toList := hlegible.plainName
  have hvalue : '\x00' ∉ h.2.toList := hlegible.plainValue
  refine Plain.untilNul ?_
  rw [Plain, toList_line]
  simp [hname, hvalue]

/-- An empty value ends with the space in front of it. -/
theorem chomp_line (hlegible : Legible h) : chomp (line h).toList = (line h).toList := by
  refine chomp_eq_self fun c hc => ?_
  rw [toList_line, List.getLast?_append, List.getLast?_cons_cons, List.getLast?_cons] at hc
  cases hlast : h.2.toList.getLast? with
  | none =>
    obtain rfl : ' ' = c := by simpa [hlast] using hc
    rfl
  | some d =>
    obtain rfl : d = c := by simpa [hlast] using hc
    exact hlegible.last d hlast

theorem ofLine?_line (hlegible : Legible h) : ofLine? (line h).toList = some h := by
  have hcut : Text.cut [':'] (line h).toList = some (h.1.toList, ' ' :: h.2.toList) :=
    Text.cut_eq_some_iff.mpr ⟨toList_line h, hlegible.name⟩
  have hvalue : (' ' :: h.2.toList).dropWhile (fun c => c == ' ' || c == '\t') = h.2.toList := by
    rw [List.dropWhile_cons_of_pos (by decide)]
    cases htext : h.2.toList with
    | nil => rfl
    | cons c rest =>
      have hc := hlegible.start c (by rw [htext]; rfl)
      exact List.dropWhile_cons_of_neg (by simpa using hc)
  simp only [ofLine?, hcut, Option.map_some, hvalue, String.ofList_toList]

theorem receiveLine_sentLine (hlegible : Legible h)
    (hends : ∀ c ∈ ends.toList, isLineEnd c = true) :
    hs.receiveLine (sentLine h ++ ends) = hs ++ [h] := by
  have hchomp : chomp (line h ++ ends).toList = (line h).toList := by
    rw [String.toList_append, chomp_append hends, hlegible.chomp_line]
  have hstatus : ¬statusMark <+: (line h ++ ends).toList := by
    rw [← statusMark_prefix_chomp_iff, hchomp]
    exact hlegible.status
  rw [hlegible.sentLine_eq, receiveLine_eq, if_neg hstatus, hchomp, hlegible.ofLine?_line]
  rfl

end Legible

/-! ### Lines in order -/

theorem Arrives.foldl_receiveLine (hlegible : ∀ h ∈ hs, Legible h)
    (harrives : Arrives (hs.map sentLine) raw) : raw.foldl receiveLine acc = acc ++ hs := by
  generalize hsent : hs.map sentLine = sent at harrives
  induction harrives generalizing hs acc with
  | nil =>
    obtain rfl := List.map_eq_nil_iff.mp hsent
    exact (List.append_nil acc).symm
  | idle hidle _ ih =>
    rw [List.foldl_cons, receiveLine_of_idle hidle]
    exact ih hlegible hsent
  | sent line ends hends _ ih =>
    obtain ⟨h, hs, rfl, rfl, rfl⟩ := List.map_eq_cons_iff.mp hsent
    obtain ⟨hfirst, hrest⟩ := List.forall_mem_cons.mp hlegible
    rw [List.foldl_cons, hfirst.receiveLine_sentLine hends, ih hrest rfl, List.append_assoc]
    rfl

/-- Whatever headers there are at first and whatever lines come before: after the first line of a
response, the lines of headers that arrive as they are sent make up exactly these headers, in order.
Such lines are what an exchange sends for the headers of a request and the defaults that follow. -/
theorem received_as_sent (start : Headers) (before : List String) {status : String}
    (hstatus : statusMark <+: status.toList) {hs : Headers} (hlegible : ∀ h ∈ hs, Legible h)
    {raw : List String} (harrives : Arrives (hs.map sentLine) raw) :
    (before ++ status :: raw).foldl receiveLine start = hs
      ∧ ∀ (o : Client.Options) (r : Request),
        (Client.exchange o r).lines = (r.headers.withDefaults o.defaults).map sentLine := by
  refine ⟨?_, lines_exchange⟩
  rw [List.foldl_append, List.foldl_cons, receiveLine_of_status hstatus,
    harrives.foldl_receiveLine hlegible]
  rfl

/-- A redirection, an empty value, and a value with colons and blanks. -/
theorem received_as_sent_redirected :
    let hs : Headers := [("X-Empty", ""), ("Location", "http://h:80/a b \t")]
    statusMark <+: "HTTP/2 200\x0d\n".toList ∧ (∀ h ∈ hs, Legible h)
      ∧ Arrives (hs.map sentLine)
        ["no field\n", "X-Empty: \x0d\n", "Location: http://h:80/a b \t\x0d\n", "\x0d\n"]
      ∧ ["HTTP/1.1 302 Found\x0d\n", "Location: /b\x0d\n", "\x0d\n", "HTTP/2 200\x0d\n",
        "no field\n", "X-Empty: \x0d\n", "Location: http://h:80/a b \t\x0d\n", "\x0d\n"].foldl
          receiveLine [("Accept", "*/*")] = hs := by
  intro hs
  have hstatus : statusMark <+: "HTTP/2 200\x0d\n".toList := by decide +kernel
  have hempty : Legible ("X-Empty", "") :=
    ⟨by decide +kernel, by decide +kernel, by decide +kernel, by decide +kernel, by simp, by simp⟩
  have hcolons : Legible ("Location", "http://h:80/a b \t") :=
    ⟨by decide +kernel, by decide +kernel, by decide +kernel, by decide +kernel, by simp,
      by simp [isLineEnd]⟩
  have hlegible : ∀ h ∈ hs, Legible h := by simp [hs, hempty, hcolons]
  have hidle : ∀ text ∈ ["no field\n", "\x0d\n"], Idle text := by
    intro text htext
    fin_cases htext <;> exact ⟨by decide +kernel, by decide +kernel⟩
  have hends : ∀ c ∈ "\x0d\n".toList, isLineEnd c = true := by simp [isLineEnd]
  have harrives : Arrives (hs.map sentLine)
      ["no field\n", "X-Empty: \x0d\n", "Location: http://h:80/a b \t\x0d\n", "\x0d\n"] :=
    .idle (hidle _ (by simp)) <|
      .sent (sentLine ("X-Empty", "")) "\x0d\n" hends <|
      .sent (sentLine ("Location", "http://h:80/a b \t")) "\x0d\n" hends <|
      .idle (hidle _ (by simp)) .nil
  exact ⟨hstatus, hlegible, harrives, (received_as_sent [("Accept", "*/*")]
    ["HTTP/1.1 302 Found\x0d\n", "Location: /b\x0d\n", "\x0d\n"] hstatus hlegible harrives).1⟩

end Headers

end Ingest.Http
