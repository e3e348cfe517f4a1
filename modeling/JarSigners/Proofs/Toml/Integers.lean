import JarSigners.Toml.Document
import Mathlib.Data.List.Basic

/-!
# The integers of a document

Integers of a document have 64 bits. Numbers beyond that are refused where they are read
(`yields_number`); whatever else reads values or puts them together makes no integers of its own.
So a reader of values yields bounded ones, a change of tables keeps them bounded, and the table that
a document describes is bounded (`bounded_of_read?`).
-/

set_option autoImplicit false

namespace JarSigners.Toml

/-- All integers in a value have 64 bits, however deep they are. -/
inductive Value.Bounded : Value → Prop
  | string (text : String) : Bounded (.string text)
  | integer {n : Int} (h : inInt64 n = true) : Bounded (.integer n)
  | float (literal : String) : Bounded (.float literal)
  | boolean (b : Bool) : Bounded (.boolean b)
  | dateTime (literal : String) : Bounded (.dateTime literal)
  | array {items : List Value} (h : ∀ item ∈ items, Bounded item) : Bounded (.array items)
  | table (origin : Origin) {entries : List (String × Value)}
    (h : ∀ entry ∈ entries, Bounded entry.2) : Bounded (.table origin entries)
  | tables {items : List (List (String × Value))}
    (h : ∀ entries ∈ items, ∀ entry ∈ entries, Bounded entry.2) : Bounded (.tables items)

namespace Entries

variable {entries inner out : Entries} {key : String} {value : Value}
  {change : Entries → Option Entries}

/-- All integers in a table have 64 bits. -/
def Bounded (entries : Entries) : Prop :=
  ∀ entry ∈ entries, entry.2.Bounded

theorem bounded_nil : Bounded [] := by
  simp [Bounded]

theorem Bounded.get? (h : Bounded entries) (hget : get? entries key = some value) :
    value.Bounded := by
  obtain ⟨entry, hfound, rfl⟩ := Option.map_eq_some_iff.1 hget
  exact h entry (List.mem_of_find?_eq_some hfound)

theorem Bounded.concat (h : Bounded entries) (hvalue : value.Bounded) :
    Bounded (entries ++ [(key, value)]) :=
  List.forall_mem_append.2 ⟨h, List.forall_mem_singleton.2 hvalue⟩

theorem Bounded.put (h : Bounded entries) (key : String) (hvalue : value.Bounded) :
    Bounded (put entries key value) := by
  unfold Entries.put
  split
  · intro entry hentry
    obtain ⟨old, hold, rfl⟩ := List.mem_map.1 hentry
    split
    · exact hvalue
    · exact h old hold
  · exact h.concat hvalue

/-- A change, if it is possible, keeps the integers of a table within 64 bits. -/
def Keeps (change : Entries → Option Entries) : Prop :=
  ∀ entries out, Bounded entries → change entries = some out → Bounded out

theorem keeps_add? (key : String) (hvalue : value.Bounded) :
    Keeps fun entries => add? entries key value := by
  intro entries out h hadd
  simp only [add?] at hadd
  split at hadd
  · cases hadd
  · cases hadd
    exact h.concat hvalue

/-- Changes one after the other. -/
theorem keeps_foldlM {α : Type} {step : Entries → α → Option Entries} {xs : List α}
    (h : ∀ x ∈ xs, Keeps fun entries => step entries x) :
    Keeps fun entries => xs.foldlM step entries := by
  induction xs with
  | nil =>
    intro entries out hentries hout
    cases hout
    exact hentries
  | cons x xs ih =>
    intro entries out hentries hout
    obtain ⟨hx, hxs⟩ := List.forall_mem_cons.1 h
    simp only [List.foldlM_cons, Option.bind_eq_bind, Option.bind_eq_some_iff] at hout
    obtain ⟨next, hnext, hout⟩ := hout
    exact ih hxs next out (hx entries next hentries hnext) hout

theorem bounded_changeLast? (hkeeps : Keeps change) {items changed : List Entries}
    (hitems : ∀ entries ∈ items, Bounded entries) (h : changeLast? change items = some changed) :
    ∀ entries ∈ changed, Bounded entries := by
  unfold changeLast? at h
  cases hlast : items.getLast? with
  | none =>
    rw [hlast] at h
    cases h
  | some last =>
    rw [hlast] at h
    obtain ⟨out, hout, rfl⟩ := Option.map_eq_some_iff.1 h
    refine List.forall_mem_append.2 ⟨fun entries hmem => ?_, List.forall_mem_singleton.2 ?_⟩
    · exact hitems entries (List.dropLast_subset _ hmem)
    · exact hkeeps last out (hitems last (List.mem_of_getLast? hlast)) hout

/-- A change inside a table keeps the whole bounded. -/
theorem keeps_changeAt? (hkeeps : Keeps change) (path : List String) :
    Keeps (changeAt? change path) := by
  induction path with
  | nil => exact hkeeps
  | cons part path ih =>
    intro entries out h hout
    simp only [changeAt?] at hout
    cases hget : get? entries part with
    | none =>
      simp only [hget, Option.bind_eq_bind, Option.bind_eq_some_iff] at hout
      obtain ⟨inner, hinner, hout⟩ := hout
      cases hout
      exact h.put part (.table _ (ih [] inner bounded_nil hinner))
    | some found =>
      have hfound := h.get? hget
      cases hfound with
      | table origin hentries =>
        cases origin with
        | inline => simp [hget] at hout
        | header | implied | dotted =>
          simp only [hget, Option.bind_eq_bind, Option.bind_eq_some_iff] at hout
          obtain ⟨inner, hinner, hout⟩ := hout
          cases hout
          exact h.put part (.table _ (ih _ inner hentries hinner))
      | tables hitems =>
        simp only [hget, Option.bind_eq_bind, Option.bind_eq_some_iff] at hout
        obtain ⟨changed, hchanged, hout⟩ := hout
        cases hout
        exact h.put part (.tables (bounded_changeLast? ih hitems hchanged))
      | _ => simp [hget] at hout

/-- So does adding a bounded value under a dotted key. -/
theorem keeps_addDotted? (grows : Bool) (key : String) (hvalue : value.Bounded)
    (path : List String) : Keeps (addDotted? grows key value path) := by
  induction path generalizing grows with
  | nil =>
    intro entries out h hout
    simp only [addDotted?] at hout
    split at hout
    · exact keeps_add? key hvalue entries out h hout
    · cases hout
  | cons part path ih =>
    intro entries out h hout
    simp only [addDotted?] at hout
    cases hget : get? entries part with
    | none =>
      simp only [hget, Option.bind_eq_bind, Option.bind_eq_some_iff] at hout
      obtain ⟨inner, hinner, hout⟩ := hout
      cases hout
      exact h.put part (.table _ (ih true [] inner bounded_nil hinner))
    | some found =>
      have hfound := h.get? hget
      cases hfound with
      | table origin hentries =>
        cases origin with
        | inline | header => simp [hget] at hout
        | implied | dotted =>
          simp only [hget, Option.bind_eq_bind, Option.bind_eq_some_iff] at hout
          obtain ⟨inner, hinner, hout⟩ := hout
          cases hout
          exact h.put part (.table _ (ih _ _ inner hentries hinner))
      | tables hitems =>
        simp only [hget, Option.bind_eq_bind, Option.bind_eq_some_iff] at hout
        obtain ⟨changed, hchanged, hout⟩ := hout
        cases hout
        exact h.put part (.tables (bounded_changeLast? (ih false) hitems hchanged))
      | _ => simp [hget] at hout

/-- A table of bounded values is bounded. -/
theorem keeps_addAll? {pairs : List (List String × String × Value)}
    (h : ∀ pair ∈ pairs, pair.2.2.Bounded) : Keeps fun entries => addAll? entries pairs :=
  keeps_foldlM fun pair hpair => keeps_addDotted? true pair.2.1 (h pair hpair) pair.1

end Entries

/-! ### Reading -/

/-- Whatever a reader reads is of a kind. -/
def Yields {α : Type} (kind : α → Prop) (read : Reader α) : Prop :=
  ∀ cs x rest, read cs = some (x, rest) → kind x

theorem bounded_of_bounded {n : Int} {rest left : List Char} {v : Value}
    (h : bounded n rest = some (v, left)) : v.Bounded := by
  unfold bounded at h
  split at h
  next hbits =>
    cases h
    exact .integer hbits
  next => cases h

theorem yields_basedInteger (base : Nat) (isDigit : Char → Bool) :
    Yields Value.Bounded (basedInteger base isDigit) := by
  intro cs v rest h
  simp only [basedInteger, Option.bind_eq_bind, Option.bind_eq_some_iff] at h
  obtain ⟨found, -, h⟩ := h
  exact bounded_of_bounded h

theorem yields_integer : Yields Value.Bounded integer := by
  intro cs v rest h
  unfold integer at h
  split at h
  · exact yields_basedInteger _ _ _ _ _ h
  · exact yields_basedInteger _ _ _ _ _ h
  · exact yields_basedInteger _ _ _ _ _ h
  · simp only [Option.bind_eq_bind, Option.bind_eq_some_iff] at h
    obtain ⟨found, -, h⟩ := h
    exact bounded_of_bounded h

theorem yields_specialFloat : Yields Value.Bounded specialFloat := by
  intro cs v rest h
  unfold specialFloat at h
  split at h
  · cases h
    exact .float _
  · cases h
    exact .float _
  · cases h

theorem yields_float : Yields Value.Bounded float := by
  intro cs v rest h
  simp only [float] at h
  split at h
  next found hspecial =>
    cases h
    exact yields_specialFloat _ _ _ hspecial
  next =>
    simp only [Option.bind_eq_bind, Option.bind_eq_some_iff] at h
    obtain ⟨whole, -, fraction, -, h⟩ := h
    split at h
    · cases h
    · cases h
      exact .float _

theorem yields_dateTime : Yields Value.Bounded dateTime := by
  intro cs v rest h
  simp only [dateTime] at h
  split at h
  · obtain ⟨clock, -, h⟩ := Option.map_eq_some_iff.1 h
    cases h
    exact .dateTime _
  · split at h
    · split at h
      · split at h
        · obtain ⟨left, -, h⟩ := Option.map_eq_some_iff.1 h
          cases h
          exact .dateTime _
        · cases h
          exact .dateTime _
      · cases h
        exact .dateTime _
    · cases h
      exact .dateTime _

/-- What begins with a sign or a digit is no integer beyond 64 bits. -/
theorem yields_number : Yields Value.Bounded number := by
  intro cs v rest h
  simp only [number] at h
  split at h
  next found hdate =>
    cases h
    exact yields_dateTime _ _ _ hdate
  split at h
  next => cases h
  split at h
  next found hfloat =>
    cases h
    exact yields_float _ _ _ hfloat
  next => exact yields_integer _ _ _ h

section Nested

variable {item : Reader Value} (hitem : Yields Value.Bounded item)

include hitem

theorem yields_arrayItems (fuel : Nat) {done : List Value} (hdone : ∀ v ∈ done, v.Bounded) :
    Yields Value.Bounded (arrayItems item done fuel) := by
  induction fuel generalizing done with
  | zero =>
    intro cs v rest h
    cases h
  | succ fuel ih =>
    intro cs v rest h
    simp only [arrayItems, Option.bind_eq_bind, Option.bind_eq_some_iff] at h
    obtain ⟨begun, -, h⟩ := h
    split at h
    next =>
      cases h
      exact .array fun v hv => hdone v (List.mem_reverse.1 hv)
    next =>
      simp only [Option.bind_eq_some_iff] at h
      obtain ⟨⟨found, left⟩, hfound, left', -, h⟩ := h
      have hmore : ∀ v ∈ found :: done, v.Bounded :=
        List.forall_mem_cons.2 ⟨hitem _ _ _ hfound, hdone⟩
      split at h
      · exact ih hmore _ _ _ h
      · cases h
        exact .array fun v hv => hmore v (List.mem_reverse.1 hv)
      · cases h

theorem yields_pair : Yields (fun found => found.2.2.Bounded) (pair item) := by
  intro cs found rest h
  simp only [pair, Option.bind_eq_bind, Option.bind_eq_some_iff] at h
  obtain ⟨path, -, equals, -, ⟨v, left⟩, hv, h⟩ := h
  cases h
  exact hitem _ _ _ hv

theorem yields_inlinePairs (fuel : Nat) {done : List (List String × String × Value)}
    (hdone : ∀ found ∈ done, found.2.2.Bounded) :
    Yields (fun pairs => ∀ found ∈ pairs, found.2.2.Bounded) (inlinePairs item done fuel) := by
  induction fuel generalizing done with
  | zero =>
    intro cs pairs rest h
    cases h
  | succ fuel ih =>
    intro cs pairs rest h
    simp only [inlinePairs, Option.bind_eq_bind, Option.bind_eq_some_iff] at h
    obtain ⟨⟨found, left⟩, hfound, h⟩ := h
    have hmore : ∀ x ∈ found :: done, x.2.2.Bounded :=
      List.forall_mem_cons.2 ⟨yields_pair hitem _ _ _ hfound, hdone⟩
    split at h
    · exact ih hmore _ _ _ h
    · cases h
      exact fun x hx => hmore x (List.mem_reverse.1 hx)
    · cases h

theorem yields_inlineTable : Yields Value.Bounded (inlineTable item) := by
  intro cs v rest h
  simp only [inlineTable] at h
  split at h
  · cases h
    exact .table _ Entries.bounded_nil
  · simp only [Option.bind_eq_bind, Option.bind_eq_some_iff] at h
    obtain ⟨⟨pairs, left⟩, hpairs, entries, hentries, h⟩ := h
    cases h
    have hbounded := yields_inlinePairs hitem _ (by simp) _ _ _ hpairs
    exact .table _ (Entries.keeps_addAll? hbounded [] entries Entries.bounded_nil hentries)

end Nested

/-- Values are bounded at any depth. -/
theorem yields_value (depth : Nat) : Yields Value.Bounded (value depth) := by
  induction depth using Nat.strongRecOn with
  | ind depth ih =>
    intro cs v rest h
    unfold value at h
    split at h
    · obtain ⟨text, -, h⟩ := Option.map_eq_some_iff.1 h
      cases h
      exact .string _
    · obtain ⟨text, -, h⟩ := Option.map_eq_some_iff.1 h
      cases h
      exact .string _
    · split at h
      · cases h
      · exact yields_arrayItems (ih _ (Nat.lt_succ_self _)) _ (by simp) _ _ _ h
    · split at h
      · cases h
      · exact yields_inlineTable (ih _ (Nat.lt_succ_self _)) _ _ _ h
    · cases h
      exact .boolean _
    · cases h
      exact .boolean _
    · split at h
      · exact yields_number _ _ _ h
      · exact yields_specialFloat _ _ _ h
    · cases h

/-! ### Documents -/

/-- The pairs of a block are bounded. -/
def Block.Bounded (block : Block) : Prop :=
  ∀ found ∈ block.pairs, found.2.2.Bounded

theorem bounded_blocks (fuel : Nat) {begun : Block} {done found : List Block} {cs : List Char}
    (hbegun : begun.Bounded) (hdone : ∀ block ∈ done, block.Bounded)
    (h : blocks begun done fuel cs = some found) : ∀ block ∈ found, block.Bounded := by
  induction fuel generalizing begun done cs with
  | zero => cases h
  | succ fuel ih =>
    have hfinished : ∀ block ∈ Block.mk begun.heading begun.pairs.reverse :: done, block.Bounded :=
      List.forall_mem_cons.2 ⟨fun x hx => hbegun x (List.mem_reverse.1 hx), hdone⟩
    simp only [blocks] at h
    split at h
    next =>
      cases h
      exact fun block hblock => hfinished block (List.mem_reverse.1 hblock)
    next =>
      simp only [Option.bind_eq_bind, Option.bind_eq_some_iff] at h
      obtain ⟨⟨opened, rest⟩, -, left, -, h⟩ := h
      exact ih (by simp [Block.Bounded]) hfinished h
    next =>
      split at h
      · simp only [Option.bind_eq_bind, Option.bind_eq_some_iff] at h
        obtain ⟨left, -, h⟩ := h
        exact ih hbegun hdone h
      · simp only [Option.bind_eq_bind, Option.bind_eq_some_iff] at h
        obtain ⟨⟨pair, rest⟩, hpair, left, -, h⟩ := h
        have hmore : Block.Bounded ⟨begun.heading, pair :: begun.pairs⟩ :=
          List.forall_mem_cons.2 ⟨yields_pair (yields_value _) _ _ _ hpair, hbegun⟩
        exact ih hmore hdone h

/-- Putting a bounded block where its heading says keeps the whole bounded. -/
theorem keeps_addBlock? {block : Block} (hblock : block.Bounded) :
    Entries.Keeps fun root => addBlock? root block := by
  intro root out hroot h
  simp only [addBlock?] at h
  split at h
  next => exact Entries.keeps_addAll? hblock root out hroot h
  next path last _ =>
    refine Entries.keeps_changeAt? ?_ path root out hroot h
    intro entries changed hentries hchanged
    beta_reduce at hchanged
    split at hchanged
    next =>
      simp only [Option.bind_eq_bind, Option.bind_eq_some_iff] at hchanged
      obtain ⟨inner, hinner, hchanged⟩ := hchanged
      cases hchanged
      have hadded := Entries.keeps_addAll? hblock [] inner Entries.bounded_nil hinner
      exact hentries.put last (.table _ hadded)
    next known hget =>
      simp only [Option.bind_eq_bind, Option.bind_eq_some_iff] at hchanged
      obtain ⟨inner, hinner, hchanged⟩ := hchanged
      cases hchanged
      have hknown : Entries.Bounded known := by
        have hfound := hentries.get? hget
        cases hfound with
        | table _ hknown => exact hknown
      exact hentries.put last (.table _ (Entries.keeps_addAll? hblock known inner hknown hinner))
    next => cases hchanged
  next path last _ =>
    refine Entries.keeps_changeAt? ?_ path root out hroot h
    intro entries changed hentries hchanged
    simp only [Option.bind_eq_bind, Option.bind_eq_some_iff] at hchanged
    obtain ⟨inner, hinner, hchanged⟩ := hchanged
    have hadded := Entries.keeps_addAll? hblock [] inner Entries.bounded_nil hinner
    split at hchanged
    next =>
      cases hchanged
      exact hentries.put last (.tables (List.forall_mem_singleton.2 hadded))
    next items hget =>
      cases hchanged
      have hitems : ∀ known ∈ items, Entries.Bounded known := by
        have hfound := hentries.get? hget
        cases hfound with
        | tables hitems => exact hitems
      exact hentries.put last
        (.tables (List.forall_mem_append.2 ⟨hitems, List.forall_mem_singleton.2 hadded⟩))
    next => cases hchanged

/-- All integers of a document have 64 bits. -/
theorem bounded_of_read? {text : String} {entries : Entries} (h : read? text = some entries) :
    Entries.Bounded entries := by
  simp only [read?, Option.bind_eq_bind, Option.bind_eq_some_iff] at h
  obtain ⟨all, hall, h⟩ := h
  have hblocks := bounded_blocks _ (by simp [Block.Bounded]) (by simp) hall
  exact Entries.keeps_foldlM (fun block hblock => keeps_addBlock? (hblocks block hblock)) [] entries
    Entries.bounded_nil h

end JarSigners.Toml
