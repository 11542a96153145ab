import Eidetic.Lib.Run
import Eidetic.Config.Settings

/-!
# `api/admin/env.py`: live settings edits

`PUT /env/{key}` writes the value to `.env`, to the process environment, and to
the attribute of the config module, as a value of the type the attribute has
at the moment. `POST /env/reload` reads `.env` again and executes the config
module again. So a text is read twice, by its attribute's type and by the
expression in `config.py`, and the two need not agree.

python-dotenv is a parameter: `Dotenv` has what the endpoints use of it,
`Documented` what its documentation says about a value written without quotes.

The two readings of a text are compared form by form. Each name of the module
has a form, the expression that reads it from its variable (`Kind`), and the
invariant `Typed` says that its attribute holds a value of that form or a text:
an edit keeps the form (`holds_coerce`) and so does the home-server block
(`override_fits`). For an attribute of its form the endpoint and config read a
value alike exactly when `coerce_iff` says so, and `coerce_setTo_iff` adds what
the block puts in its place.

`Repeats` collects what a reload needs to do the same as the edit: the file
gives the value back, the module gets to its end, the attribute is read alike,
and the other names that are made from the variable are as config would set
them. Each field is one part of `EditIsReload`, so the equivalence is assembled
from `readsBack_iff`, `reloadEnv_iff` and `madeFrom_iff` on a typed module, and
the invariant makes it one on runs.
-/

namespace Eidetic.Config

open Eidetic.Lib Eidetic.Py

/-! ## python-dotenv -/

/-- `set_key(path, key, value, quote_mode="never")`, and the value that reading
the file with `override=True` finds for a variable in an environment. -/
structure Dotenv (File : Type) where
  setKey : File → Name → Text → File
  find : Environ → File → Name → Option Text

/-- A blank and a `#` after it: what follows is a comment. -/
def hasComment : Text → Bool
  | [] => false
  | c :: rest => (isSpace c && rest.head? == some '#') || hasComment rest

/-- `${`, which begins a variable to expand. -/
def hasExpansion : Text → Bool
  | [] => false
  | c :: rest => (c == '$' && rest.head? == some '{') || hasExpansion rest

/-- A text that stands for itself without quotes: one line, with no blanks
around it, that begins with no quote and has no comment in it. -/
structure Unquoted (v : Text) : Prop where
  line : '\n' ∉ v ∧ '\r' ∉ v
  trimmed : strip v = v
  bare : v.head? ≠ some '\'' ∧ v.head? ≠ some '"'
  uncommented : hasComment v = false

/-- What dotenv documents of unquoted values. In a file whose quotes are closed
(`closed`), a value that has nothing to expand is read as it was written if it
stands for itself, and as something else if not. -/
structure Documented {File : Type} (d : Dotenv File) (closed : File → Prop) : Prop where
  unquoted : ∀ environ file key v, closed file → hasExpansion v = false →
    (d.find environ (d.setKey file key v) key = some v ↔ Unquoted v)

/-! ## The two endpoints -/

/-- The `.env` file, the process environment and the config module. -/
structure Live (File F : Type) where
  file : File
  environ : Environ
  config : Module F

variable {File F : Type}

/-- The character that no variable can hold. -/
def nul : Char := Char.ofNat 0

/-- `value.lower() in ("true", "1", "yes")`. -/
def saysYes (py : Builtins F) (value : Text) : Bool :=
  py.lower value == "true".toList || py.lower value == "1".toList
    || py.lower value == "yes".toList

/-- The value as one of the type that the attribute has; the text itself where
this is none. -/
def coerce (py : Builtins F) (existing : Value F) (value : Text) : Value F :=
  match existing with
  | .scalar (.bool _) => .scalar (.bool (saysYes py value))
  | .scalar (.int _) => .scalar (((readInt value).map Scalar.int).getD (.str value))
  | .scalar (.float _) => .scalar (((py.float value).map Scalar.float).getD (.str value))
  | _ => .scalar (.str value)

/-- `update_env`: the state after a PUT, and whether it is accepted. A value
with a NUL gets to the file; `os.environ` refuses it. -/
def updateEnv (py : Builtins F) (d : Dotenv File) (s : Live File F) (key : Name)
    (value : Text) : Live File F × Bool :=
  let file := d.setKey s.file key value
  if nul ∈ value then ({ s with file := file }, false)
  else
    ({ file := file
       environ := Function.update s.environ key (some value)
       config :=
        match s.config key with
        | some existing => Function.update s.config key (some (coerce py existing value))
        | none => s.config }, true)

/-- The variables that config reads. -/
def configKeys : List Name :=
  (program.filter fun a => match a.2 with
    | .getenv _ => true
    | _ => false).map Prod.fst ++ modelRoles.map (·.2.1) ++ rateRoles.map (·.2.1)

/-- `load_dotenv(path, override=True)`: the environment after it, `none` where
a value cannot be stored. -/
def loadDotenv (d : Dotenv File) (environ : Environ) (file : File) : Option Environ :=
  if configKeys.any fun key => ((d.find environ file key).getD []).contains nul then none
  else some fun key => (d.find environ file key).or (environ key)

/-- `reload_env`: the state after a reload, and whether it gets to its end. -/
def reloadEnv (py : Builtins F) (d : Dotenv File) (s : Live File F) : Live File F × Bool :=
  match loadDotenv d s.environ s.file with
  | none => (s, false)
  | some environ =>
    let exec := execConfig py environ s.config
    ({ s with environ := environ, config := exec.1 }, exec.2)

/-- What can happen to a running process: the two requests, and anything else
that changes `.env` or the environment. -/
inductive LiveEvent (File : Type) where
  | put (key : Name) (value : Text)
  | reload
  | other (file : File) (environ : Environ)

def Live.next (py : Builtins F) (d : Dotenv File) (s : Live File F) : LiveEvent File → Live File F
  | .put key value => (updateEnv py d s key value).1
  | .reload => (reloadEnv py d s).1
  | .other file environ => { s with file := file, environ := environ }

/-- The process has started: config was executed to its end in the environment,
over the rest of its namespace. -/
def Live.Started (py : Builtins F) (s : Live File F) : Prop :=
  ∃ rest : Module F, execConfig py s.environ rest = (s.config, true)

/-! ## What a live edit should do -/

/-- The names that config makes from a variable besides the one it is named
for. -/
def derivedNames : List (Name × List Name) :=
  [(.MODEL_LLAMA, [.MODELS, .ROUTER_SYSTEM_PROMPT]),
    (.MODEL_CODER, [.MODELS, .ROUTER_SYSTEM_PROMPT]),
    (.MODEL_REASONING, [.MODELS, .ROUTER_SYSTEM_PROMPT]),
    (.RATE_LIMIT_LLAMA, [.MODEL_RATE_LIMITS]),
    (.RATE_LIMIT_CODER, [.MODEL_RATE_LIMITS]),
    (.RATE_LIMIT_REASONING, [.MODEL_RATE_LIMITS]),
    (.RATE_LIMIT_CATALOG, [.MODEL_RATE_LIMITS]),
    (.GPT_OSS_20B_MIN_MAX_TOKENS, [.MODEL_MIN_MAX_TOKENS]),
    (.HOMESERVER_CHAT_URL, [.NIM_URL]),
    (.HOMESERVER_EMBED_URL, [.NIM_EMBEDDING_URL]),
    (.HOMESERVER_MODEL, [.MODELS, .CONTEXT_WINDOWS]),
    (.HOMESERVER_EMBED_MODEL, [.MODEL_EMBEDDING]),
    (.HOMESERVER_CTX, [.CONTEXT_WINDOWS, .DEFAULT_CONTEXT_WINDOW]),
    (.LLM_BACKEND, [.NIM_URL, .NIM_EMBEDDING_URL, .MODELS, .MODEL_EMBEDDING,
      .CONTEXT_WINDOWS, .DEFAULT_CONTEXT_WINDOW, .EMBEDDING_DIM])]

/-- The other names made from a variable. -/
def derivedFrom (key : Name) : List Name := (derivedNames.lookup key).getD []

/-- The names made from a variable. -/
def madeFrom (key : Name) : List Name :=
  if (kindOf key).isSome then key :: derivedFrom key else derivedFrom key

/-- A live edit equals a reload: the PUT is rejected, or `.env` reads back the
value, and a reload leaves each name made from the variable as the PUT did. -/
def EditIsReload (py : Builtins F) (d : Dotenv File) (s : Live File F) (key : Name)
    (value : Text) : Prop :=
  let edited := updateEnv py d s key value
  edited.2 = false ∨
    (d.find edited.1.environ edited.1.file key = some value ∧
      (reloadEnv py d edited.1).2 = true ∧
      ∀ name ∈ madeFrom key, edited.1.config name = (reloadEnv py d edited.1).1.config name)

/-! ## When it does -/

/-- The attribute holds a number. -/
def IsInt (existing : Option (Value F)) : Prop := ∃ n, existing = some (.scalar (.int n))

/-- The attribute holds a float. -/
def IsFloat (existing : Option (Value F)) : Prop := ∃ x, existing = some (.scalar (.float x))

/-- The endpoint and the expression in config read a value alike, for an
attribute that holds `existing`. -/
def Kind.ReadsAlike (py : Builtins F) (existing : Option (Value F)) (value : Text) :
    Kind → Prop
  | .optional => True
  | .text _ => True
  | .lowered _ => py.lower value = value
  | .flag _ => py.lower value ≠ "1".toList ∧ py.lower value ≠ "yes".toList
  | .int _ => IsInt existing
  | .product _ => IsInt existing ∧ (readInt value).isSome = true
  | .capped _ max => IsInt existing ∧ ∃ n, readInt value = some n ∧ n ≤ max
  | .float _ => IsFloat existing
  | .csv => False

/-- The home server is asked for and its block puts the same value in. -/
def Override.Same (py : Builtins F) (environ : Environ) (existing : Option (Value F))
    (value : Text) : Override → Prop
  | .copy source => scalarAt (baseValue py environ) source = .str value
  | .const n => IsInt existing ∧ readInt value = some n
  | .roles _ => False
  | .window _ _ => False

/-- The attribute named for a variable of this form gets the same value
twice. -/
def OwnAlike (py : Builtins F) (environ : Environ) (existing : Option (Value F))
    (key : Name) (value : Text) (kind : Kind) : Prop :=
  match overrides.lookup key with
  | some o =>
    if Homeserver py environ then o.Same py environ existing value
    else kind.ReadsAlike py existing value
  | none => kind.ReadsAlike py existing value

/-- `.env` gives the value back: for a value with nothing to expand in a file
whose quotes are closed, when it stands for itself. -/
def ReadsBack (d : Dotenv File) (closed : File → Prop) (s : Live File F) (key : Name)
    (value : Text) : Prop :=
  (closed s.file ∧ hasExpansion value = false → Unquoted value) ∧
    (¬ (closed s.file ∧ hasExpansion value = false) →
      d.find (Function.update s.environ key (some value)) (d.setKey s.file key value) key
        = some value)

/-- The edits that a reload repeats: the value is read back; the environment
that `.env` then gives lets config get to its end; the endpoint reads the value
as config does; and the other names made from the variable have already the
value they get from it. -/
structure Repeats (py : Builtins F) (d : Dotenv File) (closed : File → Prop)
    (s : Live File F) (key : Name) (value : Text) : Prop where
  readsBack : ReadsBack d closed s key value
  reloads : ∃ environ, loadDotenv d (Function.update s.environ key (some value))
    (d.setKey s.file key value) = some environ ∧ Executes py environ ∧
    (∀ kind, kindOf key = some kind →
      OwnAlike py environ (s.config key) key value kind) ∧
    ∀ name ∈ derivedFrom key, s.config name = setTo py environ name

/-! ## The types of the attributes -/

/-- What an attribute of this form can hold: what the expression gives, or the
text of an edit. -/
def Kind.Holds (v : Option (Value F)) : Kind → Prop
  | .optional => v = some (.scalar .none) ∨ ∃ t, v = some (.scalar (.str t))
  | .text _ => ∃ t, v = some (.scalar (.str t))
  | .lowered _ => ∃ t, v = some (.scalar (.str t))
  | .flag _ => ∃ b, v = some (.scalar (.bool b))
  | .int _ => IsInt v ∨ ∃ t, v = some (.scalar (.str t))
  | .product _ => IsInt v ∨ ∃ t, v = some (.scalar (.str t))
  | .capped _ _ => IsInt v ∨ ∃ t, v = some (.scalar (.str t))
  | .float _ => IsFloat v ∨ ∃ t, v = some (.scalar (.str t))
  | .csv => (∃ items, v = some (.list items)) ∨ ∃ t, v = some (.scalar (.str t))

/-- Each attribute holds a value of its form or a text. -/
def Typed (m : Module F) : Prop := ∀ name kind, kindOf name = some kind → kind.Holds (m name)

theorem holds_read {py : Builtins F} {getenv : Option Text} {kind : Kind} {v : Value F}
    (h : kind.read py getenv = some v) : kind.Holds (some v) := by
  cases kind with
  | optional =>
    rw [← Option.some.inj h]
    cases getenv with
    | none => exact Or.inl rfl
    | some t => exact Or.inr ⟨t, rfl⟩
  | text default => exact ⟨_, h.symm⟩
  | lowered default => exact ⟨_, h.symm⟩
  | flag default => exact ⟨_, h.symm⟩
  | int default =>
    obtain ⟨n, -, rfl⟩ := Option.map_eq_some_iff.mp h
    exact Or.inl ⟨n, rfl⟩
  | product default =>
    obtain ⟨n, -, rfl⟩ := Option.map_eq_some_iff.mp h
    exact Or.inl ⟨n, rfl⟩
  | capped default max =>
    obtain ⟨n, -, rfl⟩ := Option.map_eq_some_iff.mp h
    exact Or.inl ⟨_, rfl⟩
  | float default =>
    obtain ⟨x, -, rfl⟩ := Option.map_eq_some_iff.mp h
    exact Or.inl ⟨x, rfl⟩
  | csv => exact Or.inl ⟨_, h.symm⟩

/-- An edit keeps the form. -/
theorem holds_coerce (py : Builtins F) {kind : Kind} {existing : Value F}
    (h : kind.Holds (some existing)) (value : Text) :
    kind.Holds (some (coerce py existing value)) := by
  -- an integer that cannot be read as one becomes the text itself
  have hint : ∀ n : Int, IsInt (some (coerce py (.scalar (.int n)) value)) ∨
      ∃ t, some (coerce py (.scalar (.int n)) value) = some (Value.scalar (.str t)) := by
    intro n
    unfold coerce
    cases readInt value with
    | none => exact Or.inr ⟨value, rfl⟩
    | some k => exact Or.inl ⟨k, rfl⟩
  have hnumber : (IsInt (some existing) ∨ ∃ t, some existing = some (Value.scalar (.str t))) →
      IsInt (some (coerce py existing value)) ∨
        ∃ t, some (coerce py existing value) = some (Value.scalar (.str t)) := by
    rintro (⟨n, hn⟩ | ⟨t, ht⟩)
    · rw [Option.some.inj hn]
      exact hint n
    · rw [Option.some.inj ht]
      exact Or.inr ⟨value, rfl⟩
  cases kind with
  | optional =>
    rcases h with h | ⟨t, h⟩
    · rw [Option.some.inj h]
      exact Or.inr ⟨value, rfl⟩
    · rw [Option.some.inj h]
      exact Or.inr ⟨value, rfl⟩
  | text default =>
    obtain ⟨t, h⟩ := h
    rw [Option.some.inj h]
    exact ⟨value, rfl⟩
  | lowered default =>
    obtain ⟨t, h⟩ := h
    rw [Option.some.inj h]
    exact ⟨value, rfl⟩
  | flag default =>
    obtain ⟨b, h⟩ := h
    rw [Option.some.inj h]
    exact ⟨_, rfl⟩
  | int default => exact hnumber h
  | product default => exact hnumber h
  | capped default max => exact hnumber h
  | float default =>
    rcases h with ⟨x, h⟩ | ⟨t, h⟩
    · rw [Option.some.inj h]
      unfold coerce
      cases py.float value with
      | none => exact Or.inr ⟨value, rfl⟩
      | some y => exact Or.inl ⟨y, rfl⟩
    · rw [Option.some.inj h]
      exact Or.inr ⟨value, rfl⟩
  | csv =>
    rcases h with ⟨items, h⟩ | ⟨t, h⟩
    · rw [Option.some.inj h]
      exact Or.inr ⟨value, rfl⟩
    · rw [Option.some.inj h]
      exact Or.inr ⟨value, rfl⟩

/-- The last assignment to a name is the only one. -/
theorem exprOf_of_mem {name : Name} {e : Expr} (h : (name, e) ∈ program) :
    exprOf name = some e := by
  have hall : ∀ a ∈ program, exprOf a.1 = some a.2 := by decide +kernel
  exact hall (name, e) h

theorem kindOf_eq {name : Name} {kind : Kind} :
    kindOf name = some kind ↔ exprOf name = some (.getenv kind) := by
  unfold kindOf
  cases exprOf name with
  | none => simp
  | some e => cases e <;> simp

/-- Binding a name to a value of its form keeps the forms. -/
theorem typed_update {m : Module F} (h : Typed m) {name : Name} {v : Value F}
    (hv : ∀ kind, kindOf name = some kind → kind.Holds (some v)) :
    Typed (Function.update m name (some v)) := by
  intro other kind hkind
  by_cases hother : other = name
  · subst hother
    rw [Function.update_self]
    exact hv kind hkind
  · rw [Function.update_of_ne hother]
    exact h other kind hkind

theorem typed_body (py : Builtins F) (environ : Environ) {m : Module F} (h : Typed m) :
    Typed (runAll (body py environ) m).1 := by
  have hstep : ∀ a ∈ body py environ, ∀ store v, Typed store → a.value store = some v →
      Typed (Function.update store a.name (some v)) := by
    intro a ha store v hstore hv
    refine typed_update hstore fun kind hkind => ?_
    obtain ⟨name, e, hmem, rfl⟩ := mem_body.mp ha
    have he := exprOf_of_mem hmem
    rw [kindOf_eq.mp hkind] at he
    rw [← Option.some.inj he] at hv
    exact holds_read hv
  exact runAll_preserves hstep h

/-- An override is of the form of the name it is assigned to: a text read as a
text, or a number. -/
def Override.fits (name : Name) : Override → Bool
  | .copy source =>
    match kindOf name, kindOf source with
    | some (.text _), some (.text _) => true
    | some _, _ => false
    | none, _ => true
  | .const _ =>
    match kindOf name with
    | some (.int _) => true
    | _ => false
  | _ => (kindOf name).isNone

theorem override_fits {name : Name} {o : Override} (h : overrides.lookup name = some o) :
    o.fits name = true := by
  have hall : ∀ p ∈ overrides, p.2.fits p.1 = true := by decide
  exact hall (name, o) (mem_of_lookup h)

/-- The overrides of a name that is read from a variable. -/
theorem override_of_kind {name : Name} {kind : Kind} {o : Override}
    (hkind : kindOf name = some kind) (ho : overrides.lookup name = some o) :
    (∃ source default default', o = .copy source ∧ kind = .text default ∧
      kindOf source = some (.text default')) ∨
      ∃ n default, o = .const n ∧ kind = .int default := by
  have hfits := override_fits ho
  cases o with
  | copy source =>
    simp only [Override.fits, hkind] at hfits
    split at hfits
    next default default' heq hsource =>
      exact Or.inl ⟨source, default, default', rfl, Option.some.inj heq, hsource⟩
    next => exact absurd hfits (by simp)
    next heq => exact absurd heq (by simp)
  | const n =>
    simp only [Override.fits, hkind] at hfits
    split at hfits
    next default heq => exact Or.inr ⟨n, default, rfl, Option.some.inj heq⟩
    next => exact absurd hfits (by simp)
  | roles model => simp [Override.fits, hkind] at hfits
  | window model ctx => simp [Override.fits, hkind] at hfits

/-- The home-server block puts texts in place of texts and a number in place of
a number. -/
theorem typed_overridden {m : Module F} (h : Typed m) : Typed (overridden m) := by
  intro name kind hkind
  unfold overridden
  split
  next =>
    rw [overrideBlock_value]
    split
    next o ho =>
      rcases override_of_kind hkind ho with
        ⟨source, default, default', rfl, rfl, hsource⟩ | ⟨n, default, rfl, rfl⟩
      · obtain ⟨t, ht⟩ := h source _ hsource
        exact ⟨t, by rw [Override.eval, scalarAt, ht]⟩
      · exact Or.inl ⟨n, rfl⟩
    next => exact h name kind hkind
  next => exact h name kind hkind

theorem typed_exec (py : Builtins F) (environ : Environ) {m : Module F} (h : Typed m) :
    Typed (execConfig py environ m).1 := by
  unfold execConfig
  dsimp only
  split
  next => exact typed_overridden (typed_body py environ h)
  next => exact typed_body py environ h

/-- Config executed to its end leaves its forms, whatever was there before. -/
theorem typed_of_started {py : Builtins F} {s : Live File F} (h : s.Started py) :
    Typed s.config := by
  obtain ⟨rest, hexec⟩ := h
  cases hok : (runAll (body py s.environ) rest).2 with
  | false =>
    have hraises : (execConfig py s.environ rest).2 = false := by
      unfold execConfig
      dsimp only
      rw [if_neg (by simp [hok])]
    rw [hexec] at hraises
    exact absurd hraises (by simp)
  | true =>
    rw [execConfig_ok hok, Prod.mk.injEq] at hexec
    rw [← hexec.1]
    refine typed_overridden fun name kind hkind => ?_
    have he := kindOf_eq.mp hkind
    have hread := ((body_ok_iff py s.environ rest).mp hok).1 name kind
      (mem_program_of_exprOf he)
    obtain ⟨v, hv⟩ := Option.isSome_iff_exists.mp hread
    rw [body_getenv hok he, hv]
    exact holds_read hv

theorem typed_next (py : Builtins F) (d : Dotenv File) (s : Live File F) (e : LiveEvent File)
    (h : Typed s.config) : Typed (s.next py d e).config := by
  cases e with
  | put key value =>
    unfold Live.next updateEnv
    dsimp only
    split
    next => exact h
    next =>
      split
      next existing hexisting =>
        refine typed_update h fun kind hkind => holds_coerce py ?_ value
        rw [← hexisting]
        exact h key kind hkind
      next => exact h
  | reload =>
    unfold Live.next reloadEnv
    dsimp only
    split
    next => exact h
    next environ _ => exact typed_exec py environ h
  | other file environ => exact h

/-- In every run each attribute holds a value of its form or a text. -/
theorem typed_run {py : Builtins F} {d : Dotenv File} {s : Live File F} (h : s.Started py)
    (events : List (LiveEvent File)) : Typed (run (Live.next py d) s events).config :=
  run_preserves (fun s : Live File F => Typed s.config)
    (fun s e hs => typed_next py d s e hs) (typed_of_started h) events

/-! ## When the two readings agree -/

theorem saysYes_iff {py : Builtins F} {value : Text} :
    (saysYes py value = (py.lower value == "true".toList)) ↔
      py.lower value ≠ "1".toList ∧ py.lower value ≠ "yes".toList := by
  unfold saysYes
  by_cases h1 : py.lower value = "1".toList
  · rw [h1]
    decide
  · by_cases h2 : py.lower value = "yes".toList
    · rw [h2]
      decide
    · rw [beq_false_of_ne h1, beq_false_of_ne h2, Bool.or_false, Bool.or_false]
      exact ⟨fun _ => ⟨h1, h2⟩, fun _ => rfl⟩

/-- An attribute for a number gets the number when it holds one and the value
is one. -/
theorem coerce_int_iff {py : Builtins F} {existing : Value F}
    (h : IsInt (some existing) ∨ ∃ t, some existing = some (Value.scalar (.str t)))
    (value : Text) (n : Int) :
    coerce py existing value = .scalar (.int n) ↔
      IsInt (some existing) ∧ readInt value = some n := by
  rcases h with ⟨k, hk⟩ | ⟨t, ht⟩
  · rw [Option.some.inj hk]
    unfold coerce
    cases hread : readInt value with
    | none => simp
    | some i => simp [IsInt]
  · rw [Option.some.inj ht]
    simp [coerce, IsInt]

/-- The endpoint and config read a value alike exactly when they say so, for an
attribute of its form and a value that config can read. -/
theorem coerce_iff {py : Builtins F} {kind : Kind} {existing : Value F}
    (h : kind.Holds (some existing)) {value : Text}
    (hread : (kind.read py (some value)).isSome = true) :
    some (coerce py existing value) = kind.read py (some value) ↔
      kind.ReadsAlike py (some existing) value := by
  cases kind with
  | optional =>
    rcases h with h | ⟨t, h⟩
    · rw [Option.some.inj h]
      simp [coerce, Kind.read, Kind.ReadsAlike]
    · rw [Option.some.inj h]
      simp [coerce, Kind.read, Kind.ReadsAlike]
  | text default =>
    obtain ⟨t, h⟩ := h
    rw [Option.some.inj h]
    simp [coerce, Kind.read, Kind.ReadsAlike]
  | lowered default =>
    obtain ⟨t, h⟩ := h
    rw [Option.some.inj h]
    simp only [coerce, Kind.read, Kind.ReadsAlike, Option.getD_some, Option.some.injEq,
      Value.scalar.injEq, Scalar.str.injEq]
    exact eq_comm
  | flag default =>
    obtain ⟨b, h⟩ := h
    rw [Option.some.inj h]
    simp only [coerce, Kind.read, Kind.ReadsAlike, Option.getD_some, Option.some.injEq,
      Value.scalar.injEq, Scalar.bool.injEq]
    exact saysYes_iff
  | int default =>
    obtain ⟨n, hn⟩ : ∃ n, readInt value = some n := by
      simpa [Kind.read, Option.isSome_iff_exists] using hread
    have hvalue : (Kind.int default).read py (some value) = some (.scalar (.int n)) := by
      simp [Kind.read, hn]
    rw [hvalue, Option.some.injEq, coerce_int_iff h, hn]
    simp [Kind.ReadsAlike]
  -- config reads the stripped text and multiplies; the endpoint does neither
  | product default =>
    obtain ⟨n, hn⟩ : ∃ n, intEnv (some value) default = some n := by
      simpa [Kind.read, Option.isSome_iff_exists] using hread
    have hvalue : (Kind.product default).read py (some value) = some (.scalar (.int n)) := by
      simp [Kind.read, hn]
    rw [hvalue, Option.some.injEq, coerce_int_iff h]
    unfold intEnv at hn
    simp only [Option.getD_some, readInt_strip] at hn
    cases hv : readInt value with
    | none => simp [Kind.ReadsAlike, hv]
    | some k =>
      rw [hv] at hn
      simp [Kind.ReadsAlike, hv, Option.some.inj hn]
  | capped default max =>
    obtain ⟨n, hn⟩ : ∃ n, readInt value = some n := by
      simpa [Kind.read, Option.isSome_iff_exists] using hread
    have hvalue : (Kind.capped default max).read py (some value)
        = some (.scalar (.int (min n max))) := by
      simp [Kind.read, hn]
    rw [hvalue, Option.some.injEq, coerce_int_iff h, hn]
    simp only [Kind.ReadsAlike, hn, Option.some.injEq]
    -- the endpoint knows no greatest value, so they agree on those within it
    constructor
    · rintro ⟨hint, hmin⟩
      exact ⟨hint, n, rfl, by omega⟩
    · rintro ⟨hint, k, rfl, hle⟩
      exact ⟨hint, by omega⟩
  | float default =>
    obtain ⟨x, hx⟩ : ∃ x, py.float value = some x := by
      simpa [Kind.read, Option.isSome_iff_exists] using hread
    rcases h with ⟨y, h⟩ | ⟨t, h⟩
    · rw [Option.some.inj h]
      simp [coerce, Kind.read, Kind.ReadsAlike, IsFloat, hx]
    · rw [Option.some.inj h]
      simp [coerce, Kind.read, Kind.ReadsAlike, IsFloat, hx]
  | csv =>
    rcases h with ⟨items, h⟩ | ⟨t, h⟩
    · rw [Option.some.inj h]
      simp [coerce, Kind.read, Kind.ReadsAlike]
    · rw [Option.some.inj h]
      simp [coerce, Kind.read, Kind.ReadsAlike]

theorem baseValue_getenv {py : Builtins F} {environ : Environ} {name : Name} {kind : Kind}
    (h : kindOf name = some kind) :
    baseValue py environ name = kind.read py (environ name) := by
  unfold baseValue
  rw [kindOf_eq.mp h]
  rfl

theorem exists_of_holds {kind : Kind} {v : Option (Value F)} (h : kind.Holds v) :
    ∃ existing, v = some existing := by
  cases kind with
  | optional => exact h.elim (fun h => ⟨_, h⟩) fun ⟨_, h⟩ => ⟨_, h⟩
  | text _ => exact h.elim fun _ h => ⟨_, h⟩
  | lowered _ => exact h.elim fun _ h => ⟨_, h⟩
  | flag _ => exact h.elim fun _ h => ⟨_, h⟩
  | int _ => exact h.elim (fun ⟨_, h⟩ => ⟨_, h⟩) fun ⟨_, h⟩ => ⟨_, h⟩
  | product _ => exact h.elim (fun ⟨_, h⟩ => ⟨_, h⟩) fun ⟨_, h⟩ => ⟨_, h⟩
  | capped _ _ => exact h.elim (fun ⟨_, h⟩ => ⟨_, h⟩) fun ⟨_, h⟩ => ⟨_, h⟩
  | float _ => exact h.elim (fun ⟨_, h⟩ => ⟨_, h⟩) fun ⟨_, h⟩ => ⟨_, h⟩
  | csv => exact h.elim (fun ⟨_, h⟩ => ⟨_, h⟩) fun ⟨_, h⟩ => ⟨_, h⟩

/-- An edit puts in what the home-server block does exactly when the two
values are the same. -/
theorem coerce_override_iff {py : Builtins F} {environ : Environ} {key : Name} {kind : Kind}
    (hkind : kindOf key = some kind) {o : Override} (ho : overrides.lookup key = some o)
    {existing : Value F} (h : kind.Holds (some existing)) (value : Text) :
    some (coerce py existing value) = some (o.eval (baseValue py environ)) ↔
      o.Same py environ (some existing) value := by
  rw [Option.some.injEq]
  rcases override_of_kind hkind ho with
    ⟨source, default, default', rfl, rfl, -⟩ | ⟨n, default, rfl, rfl⟩
  · obtain ⟨t, ht⟩ := h
    rw [Option.some.inj ht]
    simp only [coerce, Override.eval, Override.Same, Value.scalar.injEq]
    exact eq_comm
  · exact coerce_int_iff h value n

/-- The attribute named for a variable gets the same value from an edit and
from config exactly when they read it alike, the home-server block included. -/
theorem coerce_setTo_iff {py : Builtins F} {environ : Environ} {key : Name} {kind : Kind}
    (hkind : kindOf key = some kind) {existing : Value F} (h : kind.Holds (some existing))
    {value : Text} (hvalue : environ key = some value) (hexec : Executes py environ) :
    some (coerce py existing value) = setTo py environ key ↔
      OwnAlike py environ (some existing) key value kind := by
  have hread := hexec.settings key kind (mem_program_of_exprOf (kindOf_eq.mp hkind))
  rw [hvalue] at hread
  have hbase : some (coerce py existing value) = baseValue py environ key ↔
      kind.ReadsAlike py (some existing) value := by
    rw [baseValue_getenv hkind, hvalue, coerce_iff h hread]
  unfold setTo OwnAlike
  cases ho : overrides.lookup key with
  | none => exact hbase
  | some o =>
    by_cases hhome : Homeserver py environ
    · simp only [hhome, if_true]
      exact coerce_override_iff hkind ho h value
    · simp only [hhome, if_false]
      exact hbase

/-! ## The edits that a reload repeats -/

/-- What `.env` gives back is known from the value, in a file whose quotes are
closed. -/
theorem readsBack_iff {d : Dotenv File} {closed : File → Prop} (hd : Documented d closed)
    {s : Live File F} {key : Name} {value : Text} :
    d.find (Function.update s.environ key (some value)) (d.setKey s.file key value) key
        = some value ↔ ReadsBack d closed s key value := by
  unfold ReadsBack
  by_cases h : closed s.file ∧ hasExpansion value = false
  · rw [hd.unquoted _ _ _ _ h.1 h.2]
    exact ⟨fun hv => ⟨fun _ => hv, fun hn => absurd h hn⟩, fun hv => hv.1 h⟩
  · exact ⟨fun hv => ⟨fun hc => absurd hc h, fun _ => hv⟩, fun hv => hv.2 h⟩

theorem loadDotenv_find {d : Dotenv File} {environ environ' : Environ} {file : File}
    (h : loadDotenv d environ file = some environ') {key : Name} {value : Text}
    (hfind : d.find environ file key = some value) : environ' key = some value := by
  unfold loadDotenv at h
  split at h
  next => exact absurd h (by simp)
  next =>
    rw [← Option.some.inj h]
    show (d.find environ file key).or (environ key) = some value
    rw [hfind]
    rfl

/-- A reload that gets to its end leaves each name at what config sets it to. -/
theorem reloadEnv_iff {py : Builtins F} {d : Dotenv File} {s : Live File F} :
    (reloadEnv py d s).2 = true ↔
      ∃ environ, loadDotenv d s.environ s.file = some environ ∧ Executes py environ := by
  unfold reloadEnv
  cases hload : loadDotenv d s.environ s.file with
  | none => simp
  | some environ => simp [execConfig_ok_iff]

theorem reloadEnv_config {py : Builtins F} {d : Dotenv File} {s : Live File F}
    {environ : Environ} (hload : loadDotenv d s.environ s.file = some environ)
    (hexec : Executes py environ) {name : Name} {e : Expr} (he : exprOf name = some e) :
    (reloadEnv py d s).1.config name = setTo py environ name := by
  have hok := (body_ok_iff py environ s.config).mpr ⟨hexec.settings, hexec.rateLimits⟩
  unfold reloadEnv
  rw [hload]
  show (execConfig py environ s.config).1 name = _
  rw [execConfig_ok hok]
  exact overridden_value hok he

theorem exprOf_of_derived {key name : Name} (h : name ∈ derivedFrom key) :
    name ≠ key ∧ ∃ e, exprOf name = some e := by
  have hall : ∀ p ∈ derivedNames, ∀ name ∈ p.2, name ≠ p.1 ∧ (exprOf name).isSome = true := by
    decide
  unfold derivedFrom at h
  cases hlookup : derivedNames.lookup key with
  | none =>
    rw [hlookup] at h
    exact absurd h (by simp)
  | some names =>
    rw [hlookup] at h
    obtain ⟨hne, hsome⟩ := hall (key, names) (mem_of_lookup hlookup) name h
    exact ⟨hne, Option.isSome_iff_exists.mp hsome⟩

theorem updateEnv_rejects {py : Builtins F} {d : Dotenv File} {s : Live File F} {key : Name}
    {value : Text} : (updateEnv py d s key value).2 = false ↔ nul ∈ value := by
  unfold updateEnv
  by_cases h : nul ∈ value
  · simp [h]
  · simp [h]

/-- What an accepted edit does to the file and the environment, to the other
names, and to the attribute. -/
theorem updateEnv_accepts (py : Builtins F) (d : Dotenv File) (s : Live File F) (key : Name)
    {value : Text} (h : nul ∉ value) :
    (updateEnv py d s key value).1.file = d.setKey s.file key value ∧
      (updateEnv py d s key value).1.environ = Function.update s.environ key (some value) ∧
      (∀ name, name ≠ key → (updateEnv py d s key value).1.config name = s.config name) ∧
      ∀ existing, s.config key = some existing →
        (updateEnv py d s key value).1.config key = some (coerce py existing value) := by
  unfold updateEnv
  dsimp only
  rw [if_neg h]
  refine ⟨rfl, rfl, fun name hname => ?_, fun existing hexisting => ?_⟩
  · cases s.config key with
    | none => rfl
    | some existing => exact Function.update_of_ne hname _ _
  · dsimp only
    rw [hexisting]
    exact Function.update_self _ _ _

/-- After an accepted edit, a reload that gets to its end leaves the names made
from the variable as they are exactly when its attribute is read alike and the
other names were there before. -/
theorem madeFrom_iff {py : Builtins F} {d : Dotenv File} {s : Live File F}
    (hs : Typed s.config) {key : Name} {value : Text} (hnul : nul ∉ value)
    {environ : Environ}
    (hload : loadDotenv d (updateEnv py d s key value).1.environ
      (updateEnv py d s key value).1.file = some environ)
    (hexec : Executes py environ) (hvalue : environ key = some value) :
    (∀ name ∈ madeFrom key, (updateEnv py d s key value).1.config name
      = (reloadEnv py d (updateEnv py d s key value).1).1.config name) ↔
      (∀ kind, kindOf key = some kind →
        OwnAlike py environ (s.config key) key value kind) ∧
      ∀ name ∈ derivedFrom key, s.config name = setTo py environ name := by
  obtain ⟨-, -, hothers, hown⟩ := updateEnv_accepts py d s key hnul
  -- an edit leaves the names that are made from the variable by other expressions
  have hderived : ∀ name ∈ derivedFrom key,
      ((updateEnv py d s key value).1.config name
        = (reloadEnv py d (updateEnv py d s key value).1).1.config name ↔
        s.config name = setTo py environ name) := by
    intro name hname
    obtain ⟨hne, e, he⟩ := exprOf_of_derived hname
    rw [hothers name hne, reloadEnv_config hload hexec he]
  cases hkind : kindOf key with
  | none =>
    simp only [madeFrom, hkind, Option.isSome_none, Bool.false_eq_true, if_false]
    refine ⟨fun h => ⟨fun kind hk => absurd hk (by simp), fun name hname => ?_⟩,
      fun h name hname => ?_⟩
    · exact (hderived name hname).mp (h name hname)
    · exact (hderived name hname).mpr (h.2 name hname)
  | some kind =>
    have hholds := hs key kind hkind
    obtain ⟨existing, hexisting⟩ := exists_of_holds hholds
    have hkey : (updateEnv py d s key value).1.config key
        = (reloadEnv py d (updateEnv py d s key value).1).1.config key ↔
        OwnAlike py environ (s.config key) key value kind := by
      rw [hown existing hexisting, reloadEnv_config hload hexec (kindOf_eq.mp hkind), hexisting]
      exact coerce_setTo_iff hkind (hexisting ▸ hholds) hvalue hexec
    simp only [madeFrom, hkind, Option.isSome_some, if_true, List.mem_cons]
    constructor
    · intro h
      refine ⟨fun kind' hk => ?_, fun name hname => ?_⟩
      · rw [← Option.some.inj hk]
        exact hkey.mp (h key (Or.inl rfl))
      · exact (hderived name hname).mp (h name (Or.inr hname))
    · rintro ⟨halike, hothers'⟩ name (rfl | hname)
      · exact hkey.mpr (halike kind rfl)
      · exact (hderived name hname).mpr (hothers' name hname)

/-- The edits of a typed module that a reload repeats. -/
theorem editIsReload_of_typed {py : Builtins F} {d : Dotenv File} {closed : File → Prop}
    (hd : Documented d closed) {s : Live File F} (hs : Typed s.config) (key : Name)
    (value : Text) :
    EditIsReload py d s key value ↔ nul ∈ value ∨ Repeats py d closed s key value := by
  by_cases hnul : nul ∈ value
  · exact ⟨fun _ => Or.inl hnul, fun _ => Or.inl (updateEnv_rejects.mpr hnul)⟩
  -- the edit is accepted, so its two halves are known: the stores, and the attribute
  · obtain ⟨hfile, henviron, -, -⟩ := updateEnv_accepts py d s key hnul
    have haccepted : (updateEnv py d s key value).2 ≠ false :=
      fun h => hnul (updateEnv_rejects.mp h)
    have hreads : d.find (updateEnv py d s key value).1.environ
        (updateEnv py d s key value).1.file key = some value ↔
        ReadsBack d closed s key value := by
      rw [hfile, henviron]
      exact readsBack_iff hd
    constructor
    · intro h
      obtain ⟨hfind, hok, hnames⟩ := h.resolve_left haccepted
      obtain ⟨environ, hload, hexec⟩ := reloadEnv_iff.mp hok
      have hvalue := loadDotenv_find hload hfind
      obtain ⟨halike, hderived⟩ := (madeFrom_iff hs hnul hload hexec hvalue).mp hnames
      rw [hfile, henviron] at hload
      exact Or.inr ⟨hreads.mp hfind, environ, hload, hexec, halike, hderived⟩
    · intro h
      obtain ⟨hback, environ, hload, hexec, halike, hderived⟩ := h.resolve_left hnul
      have hfind := hreads.mpr hback
      rw [← hfile, ← henviron] at hload
      have hvalue := loadDotenv_find hload hfind
      exact Or.inr ⟨hfind, reloadEnv_iff.mpr ⟨environ, hload, hexec⟩,
        (madeFrom_iff hs hnul hload hexec hvalue).mpr ⟨halike, hderived⟩⟩

/-- **When a live edit equals a reload.** In every run of the process: exactly
when the PUT is rejected or is one that a reload repeats. -/
theorem editIsReload_iff {py : Builtins F} {d : Dotenv File} {closed : File → Prop}
    (hd : Documented d closed) {start : Live File F} (hstart : start.Started py)
    (events : List (LiveEvent File)) (key : Name) (value : Text) :
    EditIsReload py d (run (Live.next py d) start events) key value ↔
      nul ∈ value ∨ Repeats py d closed (run (Live.next py d) start events) key value :=
  editIsReload_of_typed hd (typed_run hstart events) key value

/-! ## A fresh process -/

instance (v : Text) : Decidable (Unquoted v) :=
  decidable_of_iff (('\n' ∉ v ∧ '\r' ∉ v) ∧ strip v = v
    ∧ (v.head? ≠ some '\'' ∧ v.head? ≠ some '"') ∧ hasComment v = false)
    ⟨fun ⟨h1, h2, h3, h4⟩ => ⟨h1, h2, h3, h4⟩, fun ⟨h1, h2, h3, h4⟩ => ⟨h1, h2, h3, h4⟩⟩

/-- A `.env` of unquoted values: each is read as it stands, or not at all. -/
def plainDotenv : Dotenv (Name → Option Text) where
  setKey file key value := Function.update file key (some value)
  find _ file key := (file key).filter fun v => decide (Unquoted v)

theorem plainDotenv_documented : Documented plainDotenv fun _ => True := by
  refine ⟨fun environ file key v _ _ => ?_⟩
  show (Function.update file key (some v) key).filter _ = some v ↔ _
  rw [Function.update_self]
  simp [Option.filter]

/-- A decimal number with at most one point. -/
def readDecimal (t : Text) : Option Rat :=
  match t.splitOn '.' with
  | [whole] => (readDigits whole).map fun n => (n : Rat)
  | [whole, part] => (readDigits whole).bind fun n =>
    (readDigits part).map fun k => n + (k : Rat) / 10 ^ part.length
  | _ => none

def asciiBuiltins : Builtins Rat where
  lower t := t.map Char.toLower
  float := readDecimal

/-- What config asks for, and nothing else. -/
def freshEnviron : Environ
  | .JWT_SECRET_KEY => some "secret".toList
  | .NVIDIA_API_KEY => some "nvapi-key".toList
  | .DATABASE_URL => some "postgresql://db".toList
  | .REDIS_URL => some "redis://redis".toList
  | _ => none

/-- The environment with no `.env`. -/
def freshLive : Live (Name → Option Text) Rat where
  file := fun _ => none
  environ := freshEnviron
  config := (execConfig asciiBuiltins freshEnviron fun _ => none).1

theorem executes_of_checks {environ : Environ}
    (hsettings : ∀ a ∈ program, (match a.2 with
      | .getenv kind => (kind.read asciiBuiltins (environ a.1)).isSome
      | _ => true) = true)
    (hrates : (rateLimitsOf environ).isSome = true)
    (hguards : ∀ key ∈ [Name.NVIDIA_API_KEY, .DATABASE_URL, .REDIS_URL, .JWT_SECRET_KEY],
      IsSet environ key) : Executes asciiBuiltins environ :=
  ⟨fun _ _ hmem => hsettings _ hmem, hrates, Or.inr (hguards _ (by simp)),
    hguards _ (by simp), hguards _ (by simp), hguards _ (by simp)⟩

theorem freshLive_started : freshLive.Started asciiBuiltins := by
  have hexec : Executes asciiBuiltins freshEnviron :=
    executes_of_checks (by decide) (by decide) (by decide)
  refine ⟨fun _ => none, ?_⟩
  rw [Prod.ext_iff]
  exact ⟨rfl, (execConfig_ok_iff _ _ _).mpr hexec⟩

/-- The environment of the fresh process with one variable set. -/
def freshWith (key : Name) (value : Text) : Environ :=
  Function.update freshEnviron key (some value)

theorem freshLive_load {key : Name} {value : Text} (hvalue : Unquoted value)
    (hnul : nul ∉ value) :
    loadDotenv plainDotenv (Function.update freshLive.environ key (some value))
      (plainDotenv.setKey freshLive.file key value) = some (freshWith key value) := by
  have hfind : ∀ name, plainDotenv.find (Function.update freshLive.environ key (some value))
      (plainDotenv.setKey freshLive.file key value) name
        = if name = key then some value else none := by
    intro name
    show (Function.update (fun _ => none) key (some value) name).filter _ = _
    by_cases hname : name = key
    · subst hname
      rw [Function.update_self, if_pos rfl]
      simp [Option.filter, hvalue]
    · rw [Function.update_of_ne hname, if_neg hname]
      rfl
  -- the file has the one key, and no value of it has a NUL
  unfold loadDotenv
  simp only [hfind]
  rw [if_neg]
  · refine congrArg some (funext fun name => ?_)
    by_cases hname : name = key
    · subst hname
      simp [freshWith]
    · rw [if_neg hname, freshWith, Function.update_of_ne hname, Function.update_of_ne hname]
      rfl
  · rw [Bool.not_eq_true, List.any_eq_false]
    intro name _
    by_cases hname : name = key
    · simpa [hname] using hnul
    · simp [hname]

/-- In a fresh process a number for `REQUEST_TIMEOUT` can be edited live. -/
theorem requestTimeout_repeats :
    Repeats asciiBuiltins plainDotenv (fun _ => True) freshLive .REQUEST_TIMEOUT
      "45".toList := by
  have hvalue : Unquoted "45".toList := by decide
  refine ⟨⟨fun _ => hvalue, fun hn => absurd ⟨trivial, by decide⟩ hn⟩,
    freshWith .REQUEST_TIMEOUT "45".toList, freshLive_load hvalue (by decide),
    executes_of_checks (by decide) (by decide) (by decide), ?_,
    fun name hname => absurd hname (by decide +revert)⟩
  intro kind hkind
  rw [← Option.some.inj (show some (Kind.int 30) = some kind from hkind)]
  exact ⟨30, by decide⟩

theorem editIsReload_requestTimeout :
    EditIsReload asciiBuiltins plainDotenv
      (run (Live.next asciiBuiltins plainDotenv) freshLive []) .REQUEST_TIMEOUT "45".toList :=
  (editIsReload_iff plainDotenv_documented freshLive_started [] .REQUEST_TIMEOUT
    "45".toList).mpr (Or.inr requestTimeout_repeats)

/-- `USE_REDIS` set to `yes` in a fresh process. -/
def yesEdit : Live (Name → Option Text) Rat × Bool :=
  updateEnv asciiBuiltins plainDotenv freshLive .USE_REDIS "yes".toList

/-- The edit is accepted and turns Redis on, the reload turns it off. -/
theorem yesEdit_undone :
    Documented plainDotenv (fun _ => True) ∧ freshLive.Started asciiBuiltins ∧
      yesEdit.2 = true ∧ yesEdit.1.config .USE_REDIS = some (.scalar (.bool true)) ∧
      (reloadEnv asciiBuiltins plainDotenv yesEdit.1).2 = true ∧
      (reloadEnv asciiBuiltins plainDotenv yesEdit.1).1.config .USE_REDIS
        = some (.scalar (.bool false)) ∧
      ¬ EditIsReload asciiBuiltins plainDotenv freshLive .USE_REDIS "yes".toList := by
  have hnul : nul ∉ "yes".toList := by decide
  obtain ⟨hfile, henviron, -, hown⟩ := updateEnv_accepts asciiBuiltins plainDotenv freshLive
    .USE_REDIS hnul
  have haccepted : yesEdit.2 ≠ false := fun h => hnul (updateEnv_rejects.mp h)
  have hload : loadDotenv plainDotenv yesEdit.1.environ yesEdit.1.file
      = some (freshWith .USE_REDIS "yes".toList) := by
    unfold yesEdit
    rw [hfile, henviron]
    exact freshLive_load (by decide) hnul
  have hexec : Executes asciiBuiltins (freshWith .USE_REDIS "yes".toList) :=
    executes_of_checks (by decide) (by decide) (by decide)
  have hon : yesEdit.1.config .USE_REDIS = some (.scalar (.bool true)) := by
    refine (hown (.scalar (.bool false)) (by decide)).trans ?_
    decide
  have hname : exprOf .USE_REDIS = some (.getenv (.flag "false".toList)) := by decide
  have hoff : (reloadEnv asciiBuiltins plainDotenv yesEdit.1).1.config .USE_REDIS
      = some (.scalar (.bool false)) := by
    rw [reloadEnv_config hload hexec hname]
    decide
  refine ⟨plainDotenv_documented, freshLive_started, by simpa using haccepted, hon,
    reloadEnv_iff.mpr ⟨_, hload, hexec⟩, hoff, ?_⟩
  intro h
  obtain ⟨-, -, hnames⟩ := h.resolve_left haccepted
  have hsame := hnames .USE_REDIS (by decide)
  rw [show (updateEnv asciiBuiltins plainDotenv freshLive .USE_REDIS "yes".toList)
    = yesEdit from rfl, hon, hoff] at hsame
  exact absurd hsame (by decide)

end Eidetic.Config
