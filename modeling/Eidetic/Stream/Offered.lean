import Eidetic.Stream.Calls

/-!
# Only offered tools run

The gates of the tools decide once which schemas a turn offers. The execution
goes by the name that the model has written, and asks no gate again: a tool
that was not offered runs if the model names it (`onlyOffered_iff`).

The gate of a tool reads the context of the turn; `offeredTools_gate` says that
every schema that a turn offers has its gate open. The rest is about names. The
loop guard lets a call through by its name and arguments, and `run_tool` looks
the name up in the whole registry, so a call is executed with an open gate when
its name was offered, or leads to no tool at all. Which calls the guard lets
through is known from `Stream.Calls`.
-/

namespace Eidetic.Stream

open Eidetic.Py Eidetic.Context Eidetic.Tools Eidetic.Lib

def ToolUse.name (x : ToolUse) : Text := x.signature.1

/-- Every tool that was executed had been offered with the last call of the
model, its gate was open, the turn was no closing one and the loop guard had
not withdrawn the tools. A name without a tool executes none. -/
def OnlyOffered (c : Config) (r : Request) (w : World) (log : List Action) : Prop :=
  ∀ x ∈ (executed c).notes {} log, ∀ tool, getTool c.lower x.name = some tool →
    x.name ∈ x.standing.offered ∧ tool.shouldInject (toolContext c r w) = true ∧
      r.context.intent ≠ .closing ∧ x.standing.withdrawn = false

/-- The calls that a turn comes to and that the loop guard lets through: as
many with the same arguments under a model as the limit of the tool allows. -/
def letThrough (c : Config) (log : List Action) : List ToolUse :=
  rationed ToolUse.key (keyLimit c) ((requested c).notes {} log)

/-- The models ask for what they have been offered, or for what there is not. -/
def AsksForOffered (c : Config) (log : List Action) : Prop :=
  ∀ x ∈ letThrough c log, getTool c.lower x.name = none ∨ x.name ∈ x.standing.offered

/-! ## What is offered -/

theorem toolRegistry_nodup (lower : Text → Text) :
    ((toolRegistry lower).map (·.name)).Nodup := by
  have hnames : (toolRegistry lower).map (·.name) = (toolRegistry id).map (·.name) := rfl
  rw [hnames]
  decide +kernel

theorem injectedTools_gate {lower : Text → Text} {ctx : ToolContext} {tool : Tool}
    (h : tool ∈ injectedTools lower ctx) :
    tool ∈ toolRegistry lower ∧ tool.shouldInject ctx = true :=
  List.mem_filter.mp ((List.mem_insertionSort _).mp (List.mem_filter.mp h).1)

/-- The gate of an injected tool is that of the tool its name runs. -/
theorem getTool_gate {lower : Text → Text} {ctx : ToolContext} {tool injected : Tool}
    (hinjected : injected ∈ injectedTools lower ctx)
    (htool : getTool lower injected.name = some tool) : tool.shouldInject ctx = true := by
  obtain ⟨hmem, hgate⟩ := injectedTools_gate hinjected
  have hname : tool.name = injected.name := by simpa using List.find?_some htool
  have heq : tool = injected :=
    List.inj_on_of_nodup_map (toolRegistry_nodup lower) (List.mem_of_find?_eq_some htool) hmem hname
  rw [heq]
  exact hgate

/-- What is offered has its gate open, and nothing is offered in a closing turn. -/
theorem offeredTools_gate {c : Config} {r : Request} {w : World} {name : Text}
    (h : name ∈ (offeredTools c r w).getD []) :
    r.context.intent ≠ .closing ∧ ∀ tool, getTool c.lower name = some tool →
      tool.shouldInject (toolContext c r w) = true := by
  have hturn : name ∈ (turnTools c r w).map (·.name) := by
    unfold offeredTools at h
    dsimp only at h
    split at h
    next => exact absurd h (by simp)
    next => exact h
  obtain ⟨injected, hinjected, rfl⟩ := List.mem_map.mp hturn
  unfold turnTools at hinjected
  split at hinjected
  next => exact absurd hinjected (by simp)
  next hintent => exact ⟨hintent, fun tool htool => getTool_gate hinjected htool⟩

/-! ## When only offered tools run -/

theorem letThrough_requested {c : Config} {log : List Action} {x : ToolUse}
    (h : x ∈ letThrough c log) : x ∈ (requested c).notes {} log :=
  (rationed_sublist _).mem h

/-- Only offered tools run if and only if the calls that the loop guard lets
through name offered tools, or none. -/
theorem onlyOffered_iff (c : Config) (r : Request) (w : World) :
    OnlyOffered c r w (generateStream c r w).2.log ↔
      AsksForOffered c (generateStream c r w).2.log := by
  obtain ⟨p, hp, htallied⟩ := calls_tallied c r w
  have huses : (executed c).notes {} (generateStream c r w).2.log
      = letThrough c (generateStream c r w).2.log := htallied.rationed
  unfold OnlyOffered AsksForOffered
  rw [huses]
  constructor
  · intro h x hx
    cases htool : getTool c.lower x.name with
    | none => exact Or.inl rfl
    | some tool => exact Or.inr (h x hx tool htool).1
  · intro h x hx tool htool
    have hoffered : x.name ∈ x.standing.offered :=
      (h x hx).resolve_left (by rw [htool]; simp)
    obtain ⟨hwithdrawn, hturn⟩ :=
      htallied.offers x (letThrough_requested hx) (List.ne_nil_of_mem hoffered)
    rw [hp] at hturn
    obtain ⟨hintent, hgate⟩ := offeredTools_gate (hturn ▸ hoffered)
    exact ⟨hoffered, hgate tool htool, hintent, hwithdrawn⟩

/-- A turn without files, in which the model asks for one. The tool unpacks what the
storage returns into too few names. -/
def writingWorld : World :=
  meets [callsTool "create_file" "\x7b\"name\": \"a.txt\", \"content\": \"Hi\"\x7d", answers "Done."]
    ["Error creating file: too many values to unpack (expected 2)"]

/-- `create_file` runs though nobody has offered it. -/
theorem writingWorld_notOffered :
    ¬ OnlyOffered smallConfig (question "Hello." []) writingWorld
      (generateStream smallConfig (question "Hello." []) writingWorld).2.log := by
  have huses : (((executed smallConfig).notes {} (generateStream smallConfig (question "Hello." [])
      writingWorld).2.log).map fun x => (x.name, x.standing.offered.contains x.name))
      = [("create_file".toList, false)] := by
    decide +kernel
  have htool : (getTool smallConfig.lower "create_file".toList).isSome = true := by decide
  intro h
  obtain ⟨x, hx, hname⟩ := List.mem_map.mp (huses ▸ List.mem_singleton_self _)
  obtain ⟨hname, hoffered⟩ := Prod.mk.inj hname
  obtain ⟨tool, htool⟩ := Option.isSome_iff_exists.mp htool
  rw [← hname] at htool
  have hmem := List.contains_iff_mem.mpr (h x hx tool htool).1
  rw [hoffered] at hmem
  exact absurd hmem (by simp)

end Eidetic.Stream
