import Eidetic.Config.Live

/-!
# A module that says what its environment says

`Synced`: every name of the config module is what executing config in the
present environment sets it to. A process starts so. An edit that is read alike
keeps it so (`synced_put`), because config makes no name from a variable but
the ones of `madeFrom` (`setTo_update`); a reload brings it about. In a run of
such steps the live module is at any time the one a restart would give
(`synced_run`).

The first part says on which variables a name depends: the value that config
sets it to is the same in two environments that agree on the variables of its
expression and on those of the home-server block (`setTo_congr`). From that an
edit, which changes one variable, leaves all names but those of `madeFrom` as
config would set them, and of these it is asked that the endpoint gives them
what config would (`ReadAlike`).

So `Synced` is kept by the edits that are read alike and brought about by a
reload that gets to its end, whatever the module was before. It is the abstract
statement of what live editing is for; `Config.Live` says exactly which single
edits have it.
-/

namespace Eidetic.Config

open Eidetic.Lib Eidetic.Py

variable {File F : Type}

/-! ## The variables a name is made from -/

/-- The variables that the body reads for a name. -/
def variablesOf (name : Name) : List Name :=
  match exprOf name with
  | some (.getenv _) => [name]
  | some .models => modelRoles.map (·.2.1)
  | some .routerPrompt => modelRoles.map (·.2.1)
  | some .minMaxTokens => [.GPT_OSS_20B_MIN_MAX_TOKENS]
  | some .rateLimits => rateRoles.map (·.2.1)
  | _ => []

/-- The variables that config reads for a name, the home-server block
included. -/
def allVariablesOf (name : Name) : List Name :=
  match overrides.lookup name with
  | some o => .LLM_BACKEND :: (variablesOf name ++ o.sources.flatMap variablesOf)
  | none => variablesOf name

theorem modelsOf_congr {environ environ' : Environ}
    (h : ∀ v ∈ modelRoles.map (·.2.1), environ v = environ' v) :
    (modelsOf environ : List (Text × Scalar F)) = modelsOf environ' := by
  refine List.map_congr_left fun r hr => ?_
  rw [h r.2.1 (List.mem_map.mpr ⟨r, hr, rfl⟩)]

theorem rateLimitsOf_congr {environ environ' : Environ}
    (h : ∀ v ∈ rateRoles.map (·.2.1), environ v = environ' v) :
    rateLimitsOf environ = rateLimitsOf environ' := by
  have hlimits : ∀ roles : List (Text × Name × Int), (∀ r ∈ roles, r ∈ rateRoles) →
      (roles.mapM fun r => (intEnv (environ r.2.1) r.2.2).map fun n => (r.1, n, (60 : Int)))
        = roles.mapM fun r => (intEnv (environ' r.2.1) r.2.2).map fun n => (r.1, n, 60) := by
    intro roles hroles
    induction roles with
    | nil => rfl
    | cons r roles ih =>
      have hr := h r.2.1 (List.mem_map.mpr ⟨r, hroles r List.mem_cons_self, rfl⟩)
      rw [List.mapM_cons, List.mapM_cons, hr,
        ih fun r' hr' => hroles r' (List.mem_cons_of_mem _ hr')]
  exact hlimits rateRoles fun r hr => hr

theorem ownValue_congr {py : Builtins F} {environ environ' : Environ} {name : Name}
    (h : ∀ v ∈ variablesOf name, environ v = environ' v) :
    ownValue py environ name = ownValue py environ' name := by
  unfold ownValue
  unfold variablesOf at h
  split
  next kind he =>
    rw [he] at h
    rw [h name (by simp)]
  next he =>
    rw [he] at h
    rw [modelsOf_congr h]
  next => rfl

/-- What the body sets a name to depends on its variables only. -/
theorem baseValue_congr {py : Builtins F} {environ environ' : Environ} {name : Name}
    (h : ∀ v ∈ variablesOf name, environ v = environ' v) :
    baseValue py environ name = baseValue py environ' name := by
  unfold baseValue
  unfold variablesOf at h
  cases he : exprOf name with
  | none => rfl
  | some e =>
    rw [he] at h
    rw [Option.bind_some, Option.bind_some]
    cases e with
    | getenv kind => rw [Expr.eval, Expr.eval, h name (by simp)]
    | models => rw [Expr.eval, Expr.eval, modelsOf_congr h]
    | minMaxTokens =>
      have hsource : ownValue py environ .GPT_OSS_20B_MIN_MAX_TOKENS
          = ownValue py environ' .GPT_OSS_20B_MIN_MAX_TOKENS :=
        ownValue_congr fun v hv => h v hv
      rw [Expr.eval, Expr.eval, scalarAt_congr hsource]
    | rateLimits => rw [Expr.eval, Expr.eval, rateLimitsOf_congr h]
    | routerPrompt =>
      have hsource : ownValue py environ .MODELS = ownValue py environ' .MODELS :=
        ownValue_congr fun v hv => h v hv
      rw [Expr.eval, Expr.eval, dictAt_congr hsource]
    | contextWindows => rfl
    | defaultContextWindow => rfl

/-- What config sets a name to depends on its variables only. -/
theorem setTo_congr {py : Builtins F} {environ environ' : Environ} {name : Name}
    (h : ∀ v ∈ allVariablesOf name, environ v = environ' v) :
    setTo py environ name = setTo py environ' name := by
  unfold setTo
  unfold allVariablesOf at h
  cases ho : overrides.lookup name with
  | none =>
    rw [ho] at h
    exact baseValue_congr h
  | some o =>
    rw [ho] at h
    have hown : baseValue py environ name = baseValue py environ' name :=
      baseValue_congr fun v hv => h v (List.mem_cons_of_mem _ (List.mem_append_left _ hv))
    have hsources : o.eval (baseValue py environ) = o.eval (baseValue py environ') := by
      refine override_eval_congr fun source hsource => baseValue_congr fun v hv => ?_
      exact h v (List.mem_cons_of_mem _ (List.mem_append_right _
        (List.mem_flatMap.mpr ⟨source, hsource, hv⟩)))
    have hhome : Homeserver py environ ↔ Homeserver py environ' := by
      unfold Homeserver
      rw [h .LLM_BACKEND List.mem_cons_self]
    simp only [hown, hsources, hhome]

/-- Config makes no other name from a variable than those of `madeFrom`. -/
theorem setTo_update {py : Builtins F} {environ : Environ} {key name : Name}
    (hname : ∃ e, exprOf name = some e) (h : name ∉ madeFrom key) (value : Text) :
    setTo py (Function.update environ key (some value)) name = setTo py environ name := by
  have hall : ∀ a ∈ program, ∀ v ∈ allVariablesOf a.1, a.1 ∈ madeFrom v := by
    decide +kernel
  obtain ⟨e, he⟩ := hname
  refine setTo_congr fun v hv => Function.update_of_ne ?_ _ _
  rintro rfl
  exact h (hall (name, e) (mem_program_of_exprOf he) v hv)

/-! ## The invariant -/

/-- Every name of the module is what config sets it to in the environment. -/
def Synced (py : Builtins F) (s : Live File F) : Prop :=
  ∀ name e, exprOf name = some e → s.config name = setTo py s.environ name

theorem synced_of_started {py : Builtins F} {s : Live File F} (h : s.Started py) :
    Synced py s := by
  obtain ⟨rest, hexec⟩ := h
  have hok : (execConfig py s.environ rest).2 = true := by rw [hexec]
  have hexecutes := (execConfig_ok_iff py s.environ rest).mp hok
  have hbody := (body_ok_iff py s.environ rest).mpr ⟨hexecutes.settings, hexecutes.rateLimits⟩
  rw [execConfig_ok hbody, Prod.mk.injEq] at hexec
  intro name e he
  rw [← hexec.1]
  exact overridden_value hbody he

/-- The edits that are read alike: config can read the value, gives it to the
attribute as the endpoint does, and gives the other names made from the
variable what they have. -/
structure ReadAlike (py : Builtins F) (s : Live File F) (key : Name) (value : Text) :
    Prop where
  known : key ∈ configKeys
  executes : Executes py (Function.update s.environ key (some value))
  own : ∀ kind, kindOf key = some kind →
    OwnAlike py (Function.update s.environ key (some value)) (s.config key) key value kind
  derived : ∀ name ∈ derivedFrom key,
    s.config name = setTo py (Function.update s.environ key (some value)) name

/-- A name that is a variable's own is read from it. -/
theorem kindOf_of_configKey {key : Name} (h : key ∈ configKeys) {e : Expr}
    (he : exprOf key = some e) : ∃ kind, kindOf key = some kind := by
  have hall : ∀ key ∈ configKeys, (exprOf key).isSome = true → (kindOf key).isSome = true := by
    decide +kernel
  exact Option.isSome_iff_exists.mp (hall key h (by rw [he]; rfl))

/-- An edit that is read alike keeps the module in step with the environment. -/
theorem synced_put {py : Builtins F} {d : Dotenv File} {s : Live File F}
    (htyped : Typed s.config) (h : Synced py s) {key : Name} {value : Text}
    (hnul : nul ∉ value) (halike : ReadAlike py s key value) :
    Synced py (updateEnv py d s key value).1 := by
  obtain ⟨-, henviron, hothers, hown⟩ := updateEnv_accepts py d s key hnul
  intro name e he
  rw [henviron]
  by_cases hname : name = key
  · subst hname
    obtain ⟨kind, hkind⟩ := kindOf_of_configKey halike.known he
    have hholds := htyped name kind hkind
    obtain ⟨existing, hexisting⟩ := exists_of_holds hholds
    have hsame := halike.own kind hkind
    rw [hexisting] at hsame hholds
    rw [hown existing hexisting]
    exact (coerce_setTo_iff hkind hholds (Function.update_self ..) halike.executes).mpr hsame
  · rw [hothers name hname]
    by_cases hmade : name ∈ madeFrom key
    · refine halike.derived name ?_
      unfold madeFrom at hmade
      split at hmade
      next => exact (List.mem_cons.mp hmade).resolve_left hname
      next => exact hmade
    · rw [setTo_update ⟨e, he⟩ hmade]
      exact h name e he

/-- A reload that gets to its end brings the module in step. -/
theorem synced_reload {py : Builtins F} {d : Dotenv File} {s : Live File F}
    (hok : (reloadEnv py d s).2 = true) : Synced py (reloadEnv py d s).1 := by
  obtain ⟨environ, hload, hexec⟩ := reloadEnv_iff.mp hok
  have henviron : (reloadEnv py d s).1.environ = environ := by
    unfold reloadEnv
    rw [hload]
  intro name e he
  rw [henviron]
  exact reloadEnv_config hload hexec he

/-- The steps that keep the module in step: edits refused or read alike,
reloads that get to their end, changes of `.env` alone. -/
def KeepsInStep (py : Builtins F) (d : Dotenv File) (s : Live File F) : LiveEvent File → Prop
  | .put key value => nul ∈ value ∨ ReadAlike py s key value
  | .reload => (reloadEnv py d s).2 = true
  | .other _ environ => environ = s.environ

/-- **A live module is the one a restart would give**, after every run of edits
that are read alike and reloads that get to their end. -/
theorem synced_run {py : Builtins F} {d : Dotenv File} {start : Live File F}
    (hstart : start.Started py) {events : List (LiveEvent File)}
    (h : Throughout (Live.next py d) (KeepsInStep py d) start events) :
    Synced py (run (Live.next py d) start events) := by
  have hstep : ∀ (s : Live File F) e, Typed s.config ∧ Synced py s → KeepsInStep py d s e →
      Typed (s.next py d e).config ∧ Synced py (s.next py d e) := by
    intro s e hs hkeeps
    refine ⟨typed_next py d s e hs.1, ?_⟩
    cases e with
    | put key value =>
      by_cases hnul : nul ∈ value
      · have hsame : (updateEnv py d s key value).1
            = { s with file := d.setKey s.file key value } := by
          unfold updateEnv
          dsimp only
          rw [if_pos hnul]
        show Synced py (updateEnv py d s key value).1
        rw [hsame]
        exact hs.2
      · exact synced_put hs.1 hs.2 hnul (hkeeps.resolve_left hnul)
    | reload => exact synced_reload hkeeps
    | other file environ =>
      have henviron : environ = s.environ := hkeeps
      subst henviron
      exact hs.2
  exact (run_invariant (fun s : Live File F => Typed s.config ∧ Synced py s) hstep
    ⟨typed_of_started hstart, synced_of_started hstart⟩ h).2

end Eidetic.Config
