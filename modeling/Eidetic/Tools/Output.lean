import Eidetic.Tools.Registry

/-!
# What the results of the tools begin and end with

The stream loop reads the first characters of a result. Most tools begin with a
text of their own; the six `readers` begin with what they have read. A reader's
result never passes for a calendar confirmation, since it does not end like a
JSON object.

A tool's results are given by shapes (`Tools.Registry`), so what a result may
begin with is decided by the shape: `mayOpen` computes it, and `recognised`
evaluates it for each tool of the registry. From there on a result with a prefix
is known to come from one of a few tools, whatever the files and pages had in
them. That no reader returns what is taken for a calendar confirmation needs the
end of the text too: a shape that ends openly is read as no JSON object
(`loads_endsOpen`).
-/

namespace Eidetic.Tools

open Eidetic.Lib Eidetic.Py

/-- The tools whose results begin with what they have read. -/
def readers : List Text :=
  ["read_file".toList, "search_in_file".toList, "search_across_files".toList,
    "calendar_list_events".toList, "calendar_get_event".toList, "calendar_search_events".toList]

/-- The tools that ask for a calendar confirmation. -/
def calendarWriters : List Text :=
  ["calendar_create_event".toList, "calendar_update_event".toList,
    "calendar_delete_event".toList]

/-- Some result may begin with `p`. -/
def Returns.mayOpen (p : Text) : Returns → Bool
  | .shapes options => options.any fun shape => shape.mayOpen p
  | .calendarWrite _ _ => p.isPrefixOf confirmCalendarPrefix || confirmCalendarPrefix.isPrefixOf p

theorem Returns.Of.mayOpen {n : Numerals} {args : List (Text × Json)} {t p : Text} {r : Returns}
    (h : r.Of n args t) (hp : p <+: t) : r.mayOpen p = true := by
  cases r with
  | shapes options =>
    obtain ⟨shape, hshape, hmatches⟩ := h
    exact List.any_eq_true.mpr ⟨shape, hshape, hmatches.mayOpen hp⟩
  | calendarWrite op summary =>
    obtain ⟨preview, -, rfl⟩ := h
    rw [Returns.mayOpen, Bool.or_eq_true, List.isPrefixOf_iff_prefix, List.isPrefixOf_iff_prefix]
    exact List.prefix_or_prefix_of_prefix hp (List.prefix_append _ _)

theorem getTool_some {lower : Text → Text} {name : Text} {tool : Tool}
    (h : getTool lower name = some tool) : tool ∈ toolRegistry lower ∧ tool.name = name :=
  ⟨List.mem_of_find?_eq_some h, by simpa using List.find?_some h⟩

/-- The texts of `run_tool` itself. -/
theorem not_prefix_envelope {p e : Text} (hp : p.head? = some '_') :
    ¬ p <+: "Unknown tool: ".toList ++ e ∧ ¬ p <+: "Error: ".toList ++ e := by
  cases p with
  | nil => exact absurd hp (by simp)
  | cons c p =>
    obtain rfl : c = '_' := by simpa using hp
    refine ⟨fun h => ?_, fun h => ?_⟩
    · exact absurd (List.cons_prefix_cons.mp h).1 (by decide)
    · exact absurd (List.cons_prefix_cons.mp h).1 (by decide)

/-- A result with a prefix comes from a tool that may return one. -/
theorem RunTool.opened {n : Numerals} {lower : Text → Text} {name : Text}
    {args : List (Text × Json)} {t p : Text} (h : RunTool n lower name args t)
    (hhead : p.head? = some '_') (hp : p <+: t) :
    ∃ tool ∈ toolRegistry lower, tool.name = name ∧ tool.returns.Of n args t ∧
      tool.returns.mayOpen p = true := by
  unfold RunTool at h
  split at h
  next =>
    rw [h] at hp
    exact absurd hp (not_prefix_envelope hhead).1
  next tool htool =>
    obtain ⟨hmem, hname⟩ := getTool_some htool
    rcases h with h | ⟨e, h⟩
    · exact ⟨tool, hmem, hname, h, h.mayOpen hp⟩
    · rw [h] at hp
      exact absurd hp (not_prefix_envelope hhead).2

/-- The names and results of the tools do not depend on `str.lower`. -/
theorem exists_tool {lower : Text → Text} {tool : Tool} (h : tool ∈ toolRegistry lower) :
    ∃ tool' ∈ toolRegistry id, tool'.name = tool.name ∧ tool'.returns = tool.returns := by
  have hsame : (toolRegistry lower).map (fun tool => (tool.name, tool.returns))
      = (toolRegistry id).map fun tool => (tool.name, tool.returns) := rfl
  have hmem : (tool.name, tool.returns) ∈
      (toolRegistry id).map fun tool => (tool.name, tool.returns) := by
    rw [← hsame]
    exact List.mem_map_of_mem h
  obtain ⟨tool', htool', heq⟩ := List.mem_map.mp hmem
  exact ⟨tool', htool', (Prod.mk.inj heq).1, (Prod.mk.inj heq).2⟩

/-- Every text of the shape ends in a character that ends no object. -/
def endsOpen (shape : Shape Char) : Bool :=
  match shape.ending.getLast? with
  | some c => c != '}' && !isBlank c
  | none => false

/-- A confirmation request, or texts that do not look like one up to their end. -/
def Returns.unlikeCalendar : Returns → Bool
  | .shapes options => options.all fun shape => !shape.mayOpen confirmCalendarPrefix || endsOpen shape
  | .calendarWrite _ _ => true

def Returns.isCalendarWrite : Returns → Bool
  | .calendarWrite _ _ => true
  | .shapes _ => false

/-- What the loop can take the results of a tool for. -/
structure Recognised (tool : Tool) : Prop where
  askUser : tool.returns.mayOpen askUserPrefix = true → tool.name ∈ "ask_user".toList :: readers
  confirmWrite : tool.returns.mayOpen confirmWritePrefix = true →
    tool.name ∈ "write_memory".toList :: readers
  unlikeCalendar : tool.returns.unlikeCalendar = true
  writes : tool.returns.isCalendarWrite = true → tool.name ∈ calendarWriters

theorem recognised_iff (tool : Tool) : Recognised tool ↔
    (tool.returns.mayOpen askUserPrefix = true → tool.name ∈ "ask_user".toList :: readers) ∧
    (tool.returns.mayOpen confirmWritePrefix = true → tool.name ∈ "write_memory".toList :: readers) ∧
    tool.returns.unlikeCalendar = true ∧
    (tool.returns.isCalendarWrite = true → tool.name ∈ calendarWriters) :=
  ⟨fun h => ⟨h.askUser, h.confirmWrite, h.unlikeCalendar, h.writes⟩,
    fun ⟨hask, hwrite, hunlike, hwrites⟩ => ⟨hask, hwrite, hunlike, hwrites⟩⟩

instance (tool : Tool) : Decidable (Recognised tool) := decidable_of_iff _ (recognised_iff tool).symm

theorem recognised : ∀ tool ∈ toolRegistry id, Recognised tool := by
  unfold toolRegistry
  simp only [List.forall_mem_append]
  refine ⟨⟨⟨⟨⟨?_, ?_⟩, ?_⟩, ?_⟩, ?_⟩, ?_⟩
  · show ∀ tool ∈ fileTools, Recognised tool
    decide +kernel
  · show ∀ tool ∈ memoryTools id, Recognised tool
    decide
  · show ∀ tool ∈ webTools, Recognised tool
    decide
  · show ∀ tool ∈ driveTools, Recognised tool
    decide +kernel
  · show ∀ tool ∈ calendarTools, Recognised tool
    decide +kernel
  · show ∀ tool ∈ gmailTools, Recognised tool
    decide +kernel

/-- Only `ask_user` and the readers can return the prefix of a question. -/
theorem RunTool.askUser {n : Numerals} {lower : Text → Text} {name : Text}
    {args : List (Text × Json)} {t : Text} (h : RunTool n lower name args t)
    (hp : askUserPrefix <+: t) : name = "ask_user".toList ∨ name ∈ readers := by
  obtain ⟨tool, htool, rfl, -, hopen⟩ := h.opened rfl hp
  obtain ⟨tool', htool', hname, hreturns⟩ := exists_tool htool
  rw [← hname]
  exact List.mem_cons.mp ((recognised tool' htool').askUser (by rw [hreturns]; exact hopen))

/-- Only `write_memory` and the readers can return the prefix of a memory
confirmation. -/
theorem RunTool.confirmWrite {n : Numerals} {lower : Text → Text} {name : Text}
    {args : List (Text × Json)} {t : Text} (h : RunTool n lower name args t)
    (hp : confirmWritePrefix <+: t) : name = "write_memory".toList ∨ name ∈ readers := by
  obtain ⟨tool, htool, rfl, -, hopen⟩ := h.opened rfl hp
  obtain ⟨tool', htool', hname, hreturns⟩ := exists_tool htool
  rw [← hname]
  exact List.mem_cons.mp ((recognised tool' htool').confirmWrite (by rw [hreturns]; exact hopen))

/-! ## Calendar confirmations -/

/-- A text of such a shape is not read as an object, also without its beginning. -/
theorem loads_endsOpen {n : Numerals} {shape : Shape Char} {p rest : Text}
    {payload : List (Text × Json)} (hopen : endsOpen shape = true)
    (hmatches : shape.Matches (p ++ rest)) : loads .python n rest ≠ some (.obj payload) := by
  intro hloads
  obtain ⟨before, blanks, hrest, hblanks⟩ := loads_obj hloads
  unfold endsOpen at hopen
  split at hopen
  next c hc =>
    have hlast : (p ++ rest).getLast? = some c := by
      obtain ⟨front, hfront⟩ := hmatches.ending
      rw [← hfront, List.getLast?_append, hc]
      rfl
    have hend : (p ++ rest).getLast? = ('}' :: blanks).getLast? := by
      rw [hrest, ← List.append_assoc, List.getLast?_append]
      rw [List.getLast?_cons]
      rfl
    rw [hend] at hlast
    have hmem := List.mem_of_getLast? hlast
    rw [Bool.and_eq_true] at hopen
    rcases List.mem_cons.mp hmem with rfl | hc'
    · exact absurd hopen.1 (by simp)
    · rw [hblanks c hc'] at hopen
      exact absurd hopen.2 (by simp)
  next => exact absurd hopen (by simp)

/-- A calendar confirmation comes from a tool that writes to the calendar. -/
theorem RunTool.confirmCalendar {n : Numerals} {lower : Text → Text} {name : Text}
    {args payload : List (Text × Json)} {t rest : Text} (h : RunTool n lower name args t)
    (ht : t = confirmCalendarPrefix ++ rest) (hloads : loads .python n rest = some (.obj payload)) :
    name ∈ calendarWriters ∧ ∃ op preview, rest = dumps n (.obj [("op".toList, .str op),
      ("args".toList, .obj args), ("summary".toList, .str preview)]) := by
  have hp : confirmCalendarPrefix <+: t := ⟨rest, ht.symm⟩
  obtain ⟨tool, htool, rfl, hof, -⟩ := h.opened rfl hp
  obtain ⟨tool', htool', hname, hreturns⟩ := exists_tool htool
  have hunlike := (recognised tool' htool').unlikeCalendar
  rw [← hname]
  rw [← hreturns] at hof
  cases hcase : tool'.returns with
  | shapes options =>
    rw [hcase] at hof hunlike
    obtain ⟨shape, hshape, hmatches⟩ := hof
    have hend := List.all_eq_true.mp hunlike shape hshape
    rw [hmatches.mayOpen hp] at hend
    rw [ht] at hmatches
    exact absurd hloads (loads_endsOpen (by simpa using hend) hmatches)
  | calendarWrite op summary =>
    rw [hcase] at hof
    obtain ⟨preview, -, hpreview⟩ := hof
    rw [ht] at hpreview
    exact ⟨(recognised tool' htool').writes (by rw [hcase]; rfl), op.toList, preview,
      List.append_cancel_left hpreview⟩

end Eidetic.Tools
