import Mathlib
import Ingest.Proofs.Text
import Ingest.Proofs.Pipeline.World

/-!
# Addresses in parts

An address that names a scheme has an authority and a path behind it, and perhaps a query and a
fragment. Its path is found wherever else in it the signs between the parts occur
(`Http.Address.pathOf_url`), so the table of a feed that names none comes from the path alone
(`Feed.placed_by_path`), and so do the tables that a run of such feeds writes to
(`Pipeline.Run.written_by_path`).
-/

namespace Ingest

namespace Http

/-- An address that names a scheme, in parts. -/
structure Address where
  scheme : String
  authority : String
  path : String
  /-- The query and the fragment, each with its sign. -/
  suffix : String
  scheme_plain : ∀ c ∈ scheme.toList, c ≠ ':' ∧ c ≠ '?' ∧ c ≠ '#'
  authority_plain : ∀ c ∈ authority.toList, c ≠ '/' ∧ c ≠ '?' ∧ c ≠ '#'
  path_plain : ∀ c ∈ path.toList, c ≠ '?' ∧ c ≠ '#'
  path_start : ∀ c ∈ path.toList.head?, c = '/'
  suffix_start : ∀ c ∈ suffix.toList.head?, c = '?' ∨ c = '#'

namespace Address

def url (a : Address) : String :=
  a.scheme ++ "://" ++ a.authority ++ a.path ++ a.suffix

/-- What stands before the query and the fragment. -/
theorem takeWhile_url (a : Address) : a.url.toList.takeWhile (fun c => c != '?' && c != '#')
    = a.scheme.toList ++ ("://".toList ++ (a.authority.toList ++ a.path.toList)) := by
  have hplain : ∀ c ∈ a.scheme.toList ++ ("://".toList ++ (a.authority.toList ++ a.path.toList)),
      (c != '?' && c != '#') = true := by
    simp only [List.forall_mem_append, Bool.and_eq_true, bne_iff_ne]
    exact ⟨fun c hc => (a.scheme_plain c hc).2, by simp, fun c hc => (a.authority_plain c hc).2,
      a.path_plain⟩
  have hsuffix : ∀ c ∈ a.suffix.toList.head?, (c != '?' && c != '#') = false := by
    intro c hc
    rcases a.suffix_start c hc with rfl | rfl <;> rfl
  have hurl : a.url.toList = a.scheme.toList
      ++ ("://".toList ++ (a.authority.toList ++ a.path.toList)) ++ a.suffix.toList := by
    simp [url]
  rw [hurl, (Text.takeWhile_dropWhile_append hplain hsuffix).1]

/-- The path starts at the first slash behind the scheme. -/
theorem dropWhile_authority (a : Address) :
    (a.authority.toList ++ a.path.toList).dropWhile (· != '/') = a.path.toList := by
  have hauthority : ∀ c ∈ a.authority.toList, (c != '/') = true :=
    fun c hc => bne_iff_ne.mpr (a.authority_plain c hc).1
  have hpath : ∀ c ∈ a.path.toList.head?, (c != '/') = false :=
    fun c hc => bne_eq_false_iff_eq.mpr (a.path_start c hc)
  exact (Text.takeWhile_dropWhile_append hauthority hpath).2

theorem pathOf_url (a : Address) : pathOf a.url = a.path.toList := by
  have hscheme : ':' ∉ a.scheme.toList := fun h => (a.scheme_plain _ h).1 rfl
  have hcut : Text.cut "://".toList
      (a.scheme.toList ++ ("://".toList ++ (a.authority.toList ++ a.path.toList)))
        = some (a.scheme.toList, a.authority.toList ++ a.path.toList) :=
    Text.cut_append hscheme ['/', '/'] _
  unfold pathOf
  simp only [takeWhile_url, hcut, dropWhile_authority]

/-- The path without its slashes. -/
def table (a : Address) : String :=
  String.ofList (a.path.toList.filter (· != '/'))

end Address

end Http

open Http

namespace Feed

variable {f : Feed} {a : Address}

theorem resolvedTable_of_url (hurl : f.request.url = a.url) :
    f.resolvedTable = if f.table = "" then a.table else f.table := by
  simp only [resolvedTable, hurl, a.pathOf_url, Address.table, String.isEmpty_iff]

/-- Where the data of a feed goes, at an address in parts. -/
theorem destination_of_url (hurl : f.request.url = a.url) :
    f.destination = ⟨f.database, if f.table = "" then a.table else f.table⟩ := by
  rw [destination, resolvedTable_of_url hurl]

/-- The path of an address is read as it is, whatever the other parts hold, and without its slashes
it is the table of a feed that names none. Where the data of a feed goes is the same at each address
with this path: another scheme, authority, query or fragment makes no difference. -/
theorem placed_by_path (a : Address) {f : Feed} (hurl : f.request.url = a.url) :
    pathOf f.request.url = a.path.toList
      ∧ (f.table = "" → f.resolvedTable.toList = a.path.toList.filter (· != '/'))
      ∧ ∀ (b : Address) (g : Feed), b.path = a.path → g.request.url = b.url →
        g.database = f.database → g.table = f.table → g.destination = f.destination := by
  refine ⟨hurl ▸ a.pathOf_url, fun htable => ?_, fun b g hpath hg hdatabase htable => ?_⟩
  · rw [resolvedTable_of_url hurl, if_pos htable, Address.table, String.toList_ofList]
  · rw [destination_of_url hg, destination_of_url hurl, hdatabase, htable, Address.table,
      Address.table, hpath]

/-- The signs between the parts stand in other parts as well. -/
theorem placed_by_path_odd :
    let a : Address :=
      { scheme := "a/b", authority := "h:80@", path := "/x://y//", suffix := "?/z#://"
        scheme_plain := by simp, authority_plain := by simp, path_plain := by simp
        path_start := by simp, suffix_start := by simp }
    let f : Feed := { request := { url := "a/b://h:80@/x://y//?/z#://" } }
    let g : Feed := { request := { url := "a/b://h:80@/x://y//#w" } }
    f.request.url = a.url ∧ pathOf f.request.url = "/x://y//".toList
      ∧ f.resolvedTable.toList = "x:y".toList ∧ g.destination = f.destination := by
  intro a f g
  obtain ⟨hpath, htable, hplace⟩ := placed_by_path a (f := f) rfl
  have hslashes : a.path.toList.filter (· != '/') = "x:y".toList := by decide
  let b : Address := { a with suffix := "#w", suffix_start := by simp }
  exact ⟨rfl, hpath, (htable rfl).trans hslashes, hplace b g rfl rfl rfl rfl⟩

end Feed

namespace Pipeline

variable {σ : Type}

theorem Services.keeps_destinations (sv : Services σ) (D : Destination → Prop) :
    sv.Keeps D fun ws _ => ∀ x ∈ ws, D x.upsert.destination where
  ask h _ := h
  wake h _ := h
  giveUp h := h
  send h _ := h
  write _ hu _ h := List.forall_mem_append.mpr ⟨h, by simpa using hu⟩
  fail _ hu _ h := List.forall_mem_append.mpr ⟨h, by simpa using hu⟩

/-- Whatever happens in a run, all that it writes goes to the database of a feed, and there to the
table that the feed names or, if it names none, to the path of its address without slashes. -/
theorem Run.written_by_path {sv : Services σ} {context : String} {feeds : List Feed} {workers : ℕ}
    (hw : 0 < workers) {s₀ s : Shared σ} (hv : s₀.registers.Valid) {es : List Event} {r : Run}
    (hes : follow? (act? sv) (start context feeds workers s₀) es = some (r, s))
    {address : Feed → Http.Address} (haddress : ∀ f ∈ feeds, f.request.url = (address f).url) :
    ∀ x ∈ r.delivery.writes, ∃ f ∈ feeds, x.upsert.destination
      = ⟨f.database, if f.table = "" then (address f).table else f.table⟩ := by
  intro x hx
  have hplaces := keeps_of_follow? (sv.keeps_destinations (· ∈ feeds.map Feed.destination)) hw hv
    (by simp) hes
  obtain ⟨f, hf, hfx⟩ := List.mem_map.mp (hplaces x hx)
  exact ⟨f, hf, hfx.symm.trans (Feed.destination_of_url (haddress f hf))⟩

end Pipeline

end Ingest
