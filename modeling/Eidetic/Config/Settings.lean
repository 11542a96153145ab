import Eidetic.Lib.Assignments
import Eidetic.Lib.Dict
import Eidetic.Py.Int

/-!
# `config.py`

The module body as the assignments it makes, in its order: `program` has one
for each name that is made from the environment, `overrides` the ones of the
home-server block, `startsUp` the guards at the end. `execConfig` runs them
over the namespace of the module, which a reload does not clear.

What the module then holds is `setTo`, name by name (`execConfig_value`), and it
gets to its end exactly in the environments of `Executes` (`execConfig_ok_iff`).
Constants of the module are left out.

The order of the assignments matters, as some read names that others have made:
`program_dependents` has them all, and says that each such name is assigned
before and not again. So what the body leaves in a name is the value of its last
assignment, read at the end (`body_name`, `body_value`), and the home-server
block then replaces some of the names by what others were before it
(`overrideBlock_value`). Names are an inductive type and the lookups are decided
by evaluation, so a new setting is a line in each of the tables and no new
proof.

Whether the module raises depends on the environment alone (`eval_isSome_iff`):
every number can be read, and what the guards ask for is there. These are the
environments of `Executes`.
-/

namespace Eidetic.Config

open Eidetic.Lib Eidetic.Py

/-- The names of the module that are made from the environment, and the
variables they are made from. -/
inductive Name where
  | JWT_SECRET_KEY | JWT_EXPIRE_MINUTES | NVIDIA_API_KEY | NIM_URL | NIM_EMBEDDING_URL
  | LLM_BACKEND | HOMESERVER_CHAT_URL | HOMESERVER_EMBED_URL | HOMESERVER_MODEL
  | HOMESERVER_EMBED_MODEL | HOMESERVER_CTX | DATABASE_URL | REDIS_URL | MODELS | MODEL_LLAMA
  | MODEL_CODER | MODEL_REASONING | MODEL_EMBEDDING | MODEL_VISION | EMBEDDING_DIM
  | GPT_OSS_20B_MIN_MAX_TOKENS | MODEL_MIN_MAX_TOKENS | REQUEST_TIMEOUT | STREAM_READ_TIMEOUT
  | STREAM_TOTAL_TIMEOUT | STREAM_TURN_BUDGET | STREAM_MAX_TURN_TOKENS | MAX_RETRIES
  | LLM_FAILOVER_ENABLED | LLM_PRIMARY_URL | LLM_HEALTH_TTL | LLM_HEALTH_TIMEOUT
  | LLM_PRIMARY_API_KEY | MODEL_RATE_LIMITS | RATE_LIMIT_LLAMA | RATE_LIMIT_CODER
  | RATE_LIMIT_REASONING | RATE_LIMIT_CATALOG | OBSERVABILITY_ENABLED | METRICS_STREAM
  | METRICS_CONSUMER_GROUP | METRICS_STREAM_MAXLEN | METRICS_BATCH_SIZE
  | METRICS_WORKER_BLOCK_MS | METRICS_WORKER_IDLE_SLEEP | PROMETHEUS_ENABLED | PROMETHEUS_HOST
  | PROMETHEUS_PORT | NEO4J_URI | NEO4J_USER | NEO4J_PASSWORD | STORAGE_DIR | BACKUP_SCHEDULE
  | REQUIRE_INVITE | DIGEST_ENABLED | DIGEST_SCHEDULE | SMTP_HOST | SMTP_PORT | SMTP_USERNAME
  | SMTP_PASSWORD | SMTP_FROM | SMTP_STARTTLS | WEB_SEARCH_ENABLED | WEB_SEARCH_BACKEND
  | SEARXNG_URL | TAVILY_API_KEY | IMAGE_OCR_ENABLED | VOICE_ENABLED | ASR_BACKEND | ASR_MODEL
  | ASR_LANGUAGE | USE_REDIS | MEMORY_LOCK_BACKEND | MEMORY_LOCK_TTL | MEMORY_LOCK_WAIT
  | DEMO_EPHEMERAL_ENABLED | DEMO_SEED_USERNAME | DEMO_PER_ACCOUNT_CAP_USD
  | DEMO_PER_ACCOUNT_WINDOW_DAYS | DEMO_GLOBAL_CAP_USD | DEMO_GLOBAL_WINDOW_HOURS
  | DEMO_IDLE_TTL_HOURS | DEMO_REAP_INTERVAL_MIN | DEMO_MAX_LIVE_ACCOUNTS | AI_TIMEOUT
  | MAX_CONCURRENT_REQUESTS | LOG_LEVEL | LOG_FORMAT | ROUTER_SYSTEM_PROMPT | CONTEXT_WINDOWS
  | DEFAULT_CONTEXT_WINDOW | DEFAULT_MODEL_PRICE_IN | DEFAULT_MODEL_PRICE_OUT
  | CATALOG_PROBE_CONCURRENCY | CATALOG_PROBE_TIMEOUT | VAPID_PUBLIC_KEY | VAPID_PRIVATE_KEY
  | VAPID_SUBJECT | NOTIFICATION_RATE_LIMIT | NOTIFICATION_RATE_WINDOW | INTEGRATION_SECRET
  | INTEGRATION_REDIRECT_BASE | GOOGLE_CLIENT_ID | GOOGLE_CLIENT_SECRET | NOTION_CLIENT_ID
  | NOTION_CLIENT_SECRET | GITHUB_CLIENT_ID | GITHUB_CLIENT_SECRET | ENABLED_CONNECTOR_TYPES
deriving DecidableEq, Repr

/-- `os.environ`. -/
abbrev Environ := Name → Option Text

/-- Two built-ins, `str.lower` and `float` on a text: a Unicode table and a
number format that nothing here depends on. -/
structure Builtins (F : Type) where
  lower : Text → Text
  float : Text → Option F

/-- A value of a setting. -/
inductive Scalar (F : Type) where
  | none
  | bool (b : Bool)
  | int (n : Int)
  | float (x : F)
  | str (t : Text)
deriving DecidableEq, Repr

/-- A value of a name of the module. -/
inductive Value (F : Type) where
  | scalar (x : Scalar F)
  | list (items : List Text)
  | dict (entries : List (Text × Scalar F))
  | limits (entries : List (Text × Int × Int))
deriving DecidableEq, Repr

/-- The names of the module and what they are bound to. -/
abbrev Module (F : Type) := Name → Option (Value F)

variable {F : Type}

/-- The setting bound to a name. -/
def scalarAt (m : Module F) (name : Name) : Scalar F :=
  match m name with
  | some (.scalar x) => x
  | _ => .none

/-- The table bound to a name. -/
def dictAt (m : Module F) (name : Name) : List (Text × Scalar F) :=
  match m name with
  | some (.dict entries) => entries
  | _ => []

/-! ## The expressions -/

/-- The forms in which a setting is read from its variable. -/
inductive Kind where
  /-- `os.getenv(key)` -/
  | optional
  /-- `os.getenv(key, default)` -/
  | text (default : Text)
  /-- `os.getenv(key, default).lower()` -/
  | lowered (default : Text)
  /-- `os.getenv(key, default).lower() == "true"` -/
  | flag (default : Text)
  /-- `int(os.getenv(key, default))` -/
  | int (default : Int)
  /-- `_int_env(key, default)` -/
  | product (default : Int)
  /-- `min(int(os.getenv(key, default)), max)` -/
  | capped (default max : Int)
  /-- `float(os.getenv(key, default))` -/
  | float (default : Text)
  /-- `[t.strip() for t in os.getenv(key, "").split(",") if t.strip()]` -/
  | csv
deriving DecidableEq, Repr

/-- `_int_env`: an integer, or a product of integers. -/
def intEnv (getenv : Option Text) (default : Int) : Option Int :=
  let val := strip (getenv.getD (toString default).toList)
  match readInt val with
  | some n => some n
  | none => ((val.splitOn '*').mapM fun part => readInt (strip part)).map
      fun parts => parts.foldl (· * ·) 1

/-- The items of a comma-separated list. -/
def csvItems (t : Text) : List Text :=
  ((t.splitOn ',').map strip).filter fun item => !item.isEmpty

/-- What the expression gives for the variable, `none` where it raises. -/
def Kind.read (py : Builtins F) (getenv : Option Text) : Kind → Option (Value F)
  | .optional => some (.scalar ((getenv.map Scalar.str).getD .none))
  | .text default => some (.scalar (.str (getenv.getD default)))
  | .lowered default => some (.scalar (.str (py.lower (getenv.getD default))))
  | .flag default =>
    some (.scalar (.bool (py.lower (getenv.getD default) == "true".toList)))
  | .int default =>
    ((getenv.map readInt).getD (some default)).map fun n => .scalar (.int n)
  | .product default => (intEnv getenv default).map fun n => .scalar (.int n)
  | .capped default max =>
    ((getenv.map readInt).getD (some default)).map fun n => .scalar (.int (min n max))
  | .float default => (py.float (getenv.getD default)).map fun x => .scalar (.float x)
  | .csv => some (.list (csvItems (getenv.getD [])))

/-- The expressions of the module that read the environment or a name made
from it. -/
inductive Expr where
  | getenv (kind : Kind)
  | models
  | minMaxTokens
  | rateLimits
  | routerPrompt
  | contextWindows
  | defaultContextWindow
deriving DecidableEq, Repr

/-- The roles of `MODELS`, their variables and defaults. -/
def modelRoles : List (Text × Name × Text) :=
  [("llama".toList, .MODEL_LLAMA, "openai/gpt-oss-20b".toList),
    ("coder".toList, .MODEL_CODER, "deepseek-ai/deepseek-v4-flash-0731".toList),
    ("reasoning".toList, .MODEL_REASONING,
      "nvidia/nemotron-3-super-120b-a12b".toList)]

/-- The roles of `MODEL_RATE_LIMITS`, their variables and defaults. -/
def rateRoles : List (Text × Name × Int) :=
  [("llama".toList, .RATE_LIMIT_LLAMA, 15),
    ("coder".toList, .RATE_LIMIT_CODER, 10),
    ("reasoning".toList, .RATE_LIMIT_REASONING, 5),
    ("catalog".toList, .RATE_LIMIT_CATALOG, 20)]

/-- `MODELS`. -/
def modelsOf (environ : Environ) : List (Text × Scalar F) :=
  modelRoles.map fun r => (r.1, .str ((environ r.2.1).getD r.2.2))

/-- `MODEL_RATE_LIMITS`. -/
def rateLimitsOf (environ : Environ) : Option (List (Text × Int × Int)) :=
  rateRoles.mapM fun r => (intEnv (environ r.2.1) r.2.2).map fun n => (r.1, n, 60)

/-- `ROUTER_SYSTEM_PROMPT`, formatted with a table of models. -/
def routerPromptOf (models : List (Text × Scalar F)) : Text :=
  let model (role : String) : Text :=
    match models.lookup role.toList with
    | some (.str t) => t
    | _ => []
  "You are a routing system. Classify the user message and return ONLY ONE model ID from: ".toList
    ++ model "llama" ++ ", ".toList ++ model "coder" ++ ", ".toList ++ model "reasoning"
    ++ ". Coding → coder. Complex reasoning → reasoning. Everything else → llama.".toList

/-- The literal of `CONTEXT_WINDOWS`. -/
def nimContextWindows : List (Text × Scalar F) :=
  [("meta/llama-3.3-70b-instruct".toList, .int 131072),
    ("meta/llama-3.2-90b-vision-instruct".toList, .int 131072),
    ("openai/gpt-oss-20b".toList, .int 131072),
    ("deepseek-ai/deepseek-v4-flash-0731".toList, .int 32768),
    ("nvidia/nemotron-3-super-120b-a12b".toList, .int 131072),
    ("mistralai/mistral-nemotron".toList, .int 32768)]

/-- The value of an expression assigned to `name`. -/
def Expr.eval (py : Builtins F) (environ : Environ) (name : Name) (m : Module F) :
    Expr → Option (Value F)
  | .getenv kind => kind.read py (environ name)
  | .models => some (.dict (modelsOf environ))
  | .minMaxTokens => some (.dict [("openai/gpt-oss-20b".toList,
      scalarAt m .GPT_OSS_20B_MIN_MAX_TOKENS)])
  | .rateLimits => (rateLimitsOf environ).map Value.limits
  | .routerPrompt => some (.scalar (.str (routerPromptOf (dictAt m .MODELS))))
  | .contextWindows => some (.dict nimContextWindows)
  | .defaultContextWindow => some (.scalar (.int 131072))

/-! ## The module body -/

/-- The assignments of the module, in its order. -/
def program : List (Name × Expr) :=
  [(.JWT_SECRET_KEY, .getenv .optional),
    (.JWT_EXPIRE_MINUTES, .getenv (.product 60)),
    (.NVIDIA_API_KEY, .getenv .optional),
    (.NIM_URL, .getenv (.text "https://integrate.api.nvidia.com/v1/chat/completions".toList)),
    (.NIM_EMBEDDING_URL, .getenv (.text "https://integrate.api.nvidia.com/v1/embeddings".toList)),
    (.LLM_BACKEND, .getenv (.lowered "nim".toList)),
    (.HOMESERVER_CHAT_URL, .getenv (.text "http://llamacpp:8080/v1/chat/completions".toList)),
    (.HOMESERVER_EMBED_URL, .getenv (.text "http://llamacpp-embed:8081/v1/embeddings".toList)),
    (.HOMESERVER_MODEL, .getenv (.text "mixtral".toList)),
    (.HOMESERVER_EMBED_MODEL, .getenv (.text "bge-large-en-v1.5".toList)),
    (.HOMESERVER_CTX, .getenv (.product 32768)),
    (.DATABASE_URL, .getenv .optional),
    (.REDIS_URL, .getenv .optional),
    (.MODELS, .models),
    (.MODEL_EMBEDDING, .getenv (.text "nvidia/nemotron-3-embed-1b".toList)),
    (.MODEL_VISION, .getenv (.text "meta/llama-3.2-90b-vision-instruct".toList)),
    (.EMBEDDING_DIM, .getenv (.int 2048)),
    (.GPT_OSS_20B_MIN_MAX_TOKENS, .getenv (.product 512)),
    (.MODEL_MIN_MAX_TOKENS, .minMaxTokens),
    (.REQUEST_TIMEOUT, .getenv (.int 30)),
    (.STREAM_READ_TIMEOUT, .getenv (.int 120)),
    (.STREAM_TOTAL_TIMEOUT, .getenv (.int 120)),
    (.STREAM_TURN_BUDGET, .getenv (.int 300)),
    (.STREAM_MAX_TURN_TOKENS, .getenv (.int 16000)),
    (.MAX_RETRIES, .getenv (.int 3)),
    (.LLM_FAILOVER_ENABLED, .getenv (.flag "false".toList)),
    (.LLM_PRIMARY_URL, .getenv (.text [])),
    (.LLM_HEALTH_TTL, .getenv (.int 15)),
    (.LLM_HEALTH_TIMEOUT, .getenv (.float "2".toList)),
    (.LLM_PRIMARY_API_KEY, .getenv (.text [])),
    (.MODEL_RATE_LIMITS, .rateLimits),
    (.OBSERVABILITY_ENABLED, .getenv (.flag "true".toList)),
    (.METRICS_STREAM, .getenv (.text "metrics_stream".toList)),
    (.METRICS_CONSUMER_GROUP, .getenv (.text "metrics_workers".toList)),
    (.METRICS_STREAM_MAXLEN, .getenv (.int 10000)),
    (.METRICS_BATCH_SIZE, .getenv (.int 100)),
    (.METRICS_WORKER_BLOCK_MS, .getenv (.int 5000)),
    (.METRICS_WORKER_IDLE_SLEEP, .getenv (.float "0.5".toList)),
    (.PROMETHEUS_ENABLED, .getenv (.flag "true".toList)),
    (.PROMETHEUS_HOST, .getenv (.text "0.0.0.0".toList)),
    (.PROMETHEUS_PORT, .getenv (.int 9100)),
    (.NEO4J_URI, .getenv (.text "bolt://neo4j:7687".toList)),
    (.NEO4J_USER, .getenv (.text "neo4j".toList)),
    (.NEO4J_PASSWORD, .getenv (.text [])),
    (.STORAGE_DIR, .getenv (.text "storage/files".toList)),
    (.BACKUP_SCHEDULE, .getenv (.text "0 2 * * *".toList)),
    (.REQUIRE_INVITE, .getenv (.flag "false".toList)),
    (.DIGEST_ENABLED, .getenv (.flag "false".toList)),
    (.DIGEST_SCHEDULE, .getenv (.text "0 8 * * 1".toList)),
    (.SMTP_HOST, .getenv (.text [])),
    (.SMTP_PORT, .getenv (.int 587)),
    (.SMTP_USERNAME, .getenv (.text [])),
    (.SMTP_PASSWORD, .getenv (.text [])),
    (.SMTP_FROM, .getenv (.text [])),
    (.SMTP_STARTTLS, .getenv (.flag "true".toList)),
    (.WEB_SEARCH_ENABLED, .getenv (.flag "false".toList)),
    (.WEB_SEARCH_BACKEND, .getenv (.text "searxng".toList)),
    (.SEARXNG_URL, .getenv (.text "http://searxng:8080".toList)),
    (.TAVILY_API_KEY, .getenv (.text [])),
    (.IMAGE_OCR_ENABLED, .getenv (.flag "false".toList)),
    (.VOICE_ENABLED, .getenv (.flag "false".toList)),
    (.ASR_BACKEND, .getenv (.text "stub".toList)),
    (.ASR_MODEL, .getenv (.text "base.en".toList)),
    (.ASR_LANGUAGE, .getenv (.text [])),
    (.USE_REDIS, .getenv (.flag "false".toList)),
    (.MEMORY_LOCK_BACKEND, .getenv (.lowered "pg".toList)),
    (.MEMORY_LOCK_TTL, .getenv (.int 30)),
    (.MEMORY_LOCK_WAIT, .getenv (.int 5)),
    (.DEMO_EPHEMERAL_ENABLED, .getenv (.flag "false".toList)),
    (.DEMO_SEED_USERNAME, .getenv (.text "demo".toList)),
    (.DEMO_PER_ACCOUNT_CAP_USD, .getenv (.float "1.0".toList)),
    (.DEMO_PER_ACCOUNT_WINDOW_DAYS, .getenv (.int 1)),
    (.DEMO_GLOBAL_CAP_USD, .getenv (.float "10.0".toList)),
    (.DEMO_GLOBAL_WINDOW_HOURS, .getenv (.int 24)),
    (.DEMO_IDLE_TTL_HOURS, .getenv (.int 2)),
    (.DEMO_REAP_INTERVAL_MIN, .getenv (.int 30)),
    (.DEMO_MAX_LIVE_ACCOUNTS, .getenv (.int 0)),
    (.AI_TIMEOUT, .getenv (.int 10)),
    (.MAX_CONCURRENT_REQUESTS, .getenv (.capped 10 50)),
    (.LOG_LEVEL, .getenv (.text "INFO".toList)),
    (.LOG_FORMAT, .getenv (.text "json".toList)),
    (.ROUTER_SYSTEM_PROMPT, .routerPrompt),
    (.CONTEXT_WINDOWS, .contextWindows),
    (.DEFAULT_CONTEXT_WINDOW, .defaultContextWindow),
    (.DEFAULT_MODEL_PRICE_IN, .getenv (.float "0.50".toList)),
    (.DEFAULT_MODEL_PRICE_OUT, .getenv (.float "1.50".toList)),
    (.CATALOG_PROBE_CONCURRENCY, .getenv (.product 6)),
    (.CATALOG_PROBE_TIMEOUT, .getenv (.product 20)),
    (.VAPID_PUBLIC_KEY, .getenv (.text [])),
    (.VAPID_PRIVATE_KEY, .getenv (.text [])),
    (.VAPID_SUBJECT, .getenv (.text "mailto:admin@example.com".toList)),
    (.NOTIFICATION_RATE_LIMIT, .getenv (.int 5)),
    (.NOTIFICATION_RATE_WINDOW, .getenv (.int 60)),
    (.INTEGRATION_SECRET, .getenv (.text [])),
    (.INTEGRATION_REDIRECT_BASE, .getenv (.text "http://localhost:8000".toList)),
    (.GOOGLE_CLIENT_ID, .getenv (.text [])),
    (.GOOGLE_CLIENT_SECRET, .getenv (.text [])),
    (.NOTION_CLIENT_ID, .getenv (.text [])),
    (.NOTION_CLIENT_SECRET, .getenv (.text [])),
    (.GITHUB_CLIENT_ID, .getenv (.text [])),
    (.GITHUB_CLIENT_SECRET, .getenv (.text [])),
    (.ENABLED_CONNECTOR_TYPES, .getenv .csv)]

/-- The program in an environment. -/
def body (py : Builtins F) (environ : Environ) : List (Assignment Name (Value F)) :=
  program.map fun a => ⟨a.1, fun m => a.2.eval py environ a.1 m⟩

/-- What the home-server block assigns to a name: what another name has, the
one model in each role, the window of that model, or a number. -/
inductive Override where
  | copy (source : Name)
  | roles (model : Name)
  | window (model ctx : Name)
  | const (n : Int)
deriving DecidableEq, Repr

/-- The text of a setting, for a key of a table. -/
def Scalar.key : Scalar F → Text
  | .str t => t
  | _ => []

def Override.eval (m : Module F) : Override → Value F
  | .copy source => .scalar (scalarAt m source)
  | .roles model => .dict ((dictAt m .MODELS).map fun e => (e.1, scalarAt m model))
  | .window model ctx => .dict [((scalarAt m model).key, scalarAt m ctx)]
  | .const n => .scalar (.int n)

/-- The names an override reads. -/
def Override.sources : Override → List Name
  | .copy source => [source]
  | .roles model => [.MODELS, model]
  | .window model ctx => [model, ctx]
  | .const _ => []

/-- The assignments of the home-server block. -/
def overrides : List (Name × Override) :=
  [(.NIM_URL, .copy .HOMESERVER_CHAT_URL),
    (.NIM_EMBEDDING_URL, .copy .HOMESERVER_EMBED_URL),
    (.MODELS, .roles .HOMESERVER_MODEL),
    (.MODEL_EMBEDDING, .copy .HOMESERVER_EMBED_MODEL),
    (.CONTEXT_WINDOWS, .window .HOMESERVER_MODEL .HOMESERVER_CTX),
    (.DEFAULT_CONTEXT_WINDOW, .copy .HOMESERVER_CTX),
    (.EMBEDDING_DIM, .const 1024)]

/-- The home-server block. -/
def overrideBlock : List (Assignment Name (Value F)) :=
  overrides.map fun o => ⟨o.1, fun m => some (o.2.eval m)⟩

/-- `LLM_BACKEND == "homeserver"`. -/
def onHomeserver (m : Module F) : Bool :=
  match scalarAt m .LLM_BACKEND with
  | .str backend => backend == "homeserver".toList
  | _ => false

/-- The module after the home-server block. -/
def overridden (m : Module F) : Module F :=
  if onHomeserver m then (runAll overrideBlock m).1 else m

/-- The truth value of a setting that is a text or `None`. -/
def Scalar.isSet : Scalar F → Bool
  | .none => false
  | .str t => !t.isEmpty
  | _ => true

/-- None of the startup guards raises. -/
def startsUp (m : Module F) : Bool :=
  (onHomeserver m || (scalarAt m .NVIDIA_API_KEY).isSet)
    && (scalarAt m .DATABASE_URL).isSet
    && (scalarAt m .REDIS_URL).isSet
    && (scalarAt m .JWT_SECRET_KEY).isSet

/-- The module executed over its namespace: what the names are bound to when it
ends or raises, and whether it got to its end. -/
def execConfig (py : Builtins F) (environ : Environ) (m : Module F) :
    Module F × Bool :=
  let base := runAll (body py environ) m
  if base.2 then (overridden base.1, startsUp (overridden base.1)) else (base.1, false)

/-! ## What the module holds -/

/-- The last expression assigned to a name. -/
def exprOf (name : Name) : Option Expr := program.reverse.lookup name

/-- The variable's form, for a name that is read from the variable of its own
name. -/
def kindOf (name : Name) : Option Kind :=
  match exprOf name with
  | some (.getenv kind) => some kind
  | _ => none

/-- What the body assigns to a name, where this does not depend on another. -/
def ownValue (py : Builtins F) (environ : Environ) (name : Name) : Option (Value F) :=
  match exprOf name with
  | some (.getenv kind) => kind.read py (environ name)
  | some .models => some (.dict (modelsOf environ))
  | _ => none

/-- What the body assigns to a name. -/
def baseValue (py : Builtins F) (environ : Environ) (name : Name) : Option (Value F) :=
  (exprOf name).bind fun e => e.eval py environ name (ownValue py environ)

/-- The environment asks for the home server. -/
def Homeserver (py : Builtins F) (environ : Environ) : Prop :=
  py.lower ((environ .LLM_BACKEND).getD "nim".toList) = "homeserver".toList

instance (py : Builtins F) (environ : Environ) : Decidable (Homeserver py environ) :=
  inferInstanceAs (Decidable (_ = _))

/-- What config sets a name to. -/
def setTo (py : Builtins F) (environ : Environ) (name : Name) : Option (Value F) :=
  match overrides.lookup name with
  | some o =>
    if Homeserver py environ then some (o.eval (baseValue py environ))
    else baseValue py environ name
  | none => baseValue py environ name

/-- The variable is there and not empty. -/
def IsSet (environ : Environ) (key : Name) : Prop := (environ key).getD [] ≠ []

instance (environ : Environ) (key : Name) : Decidable (IsSet environ key) :=
  inferInstanceAs (Decidable (_ ≠ _))

/-- The environments in which the module gets to its end: every number can be
read, and what the guards ask for is there. -/
structure Executes (py : Builtins F) (environ : Environ) : Prop where
  settings : ∀ name kind, (name, Expr.getenv kind) ∈ program →
    (kind.read py (environ name)).isSome = true
  rateLimits : (rateLimitsOf environ).isSome = true
  nvidia : Homeserver py environ ∨ IsSet environ .NVIDIA_API_KEY
  database : IsSet environ .DATABASE_URL
  redis : IsSet environ .REDIS_URL
  jwt : IsSet environ .JWT_SECRET_KEY

theorem exprOf_split {name : Name} {e : Expr} (h : exprOf name = some e) :
    ∃ before after, program = before ++ (name, e) :: after ∧ name ∉ after.map Prod.fst := by
  obtain ⟨after, before, hsplit, hlast⟩ := List.lookup_eq_some_iff.mp h
  refine ⟨before.reverse, after.reverse, ?_, ?_⟩
  · rw [← List.reverse_reverse program, hsplit]
    simp
  · intro hmem
    obtain ⟨a, ha, he⟩ := List.mem_map.mp hmem
    have hne := hlast a (List.mem_reverse.mp ha)
    rw [he] at hne
    exact absurd hne (by simp)

theorem mem_program_of_exprOf {name : Name} {e : Expr} (h : exprOf name = some e) :
    (name, e) ∈ program := by
  obtain ⟨before, after, hsplit, -⟩ := exprOf_split h
  rw [hsplit]
  simp

/-- Whether an expression raises is decided by the environment. -/
theorem eval_isSome_iff (py : Builtins F) (environ : Environ) (name : Name) (e : Expr)
    (m : Module F) : (e.eval py environ name m).isSome = true ↔
      ((∀ kind, e = .getenv kind → (kind.read py (environ name)).isSome = true) ∧
        (e = .rateLimits → (rateLimitsOf environ).isSome = true)) := by
  cases e with
  | getenv kind => simp [Expr.eval]
  | rateLimits => simp [Expr.eval]
  | routerPrompt => simp [Expr.eval]
  | models => simp [Expr.eval]
  | minMaxTokens => simp [Expr.eval]
  | contextWindows => simp [Expr.eval]
  | defaultContextWindow => simp [Expr.eval]

theorem mem_body {py : Builtins F} {environ : Environ} {a : Assignment Name (Value F)} :
    a ∈ body py environ ↔ ∃ name e, (name, e) ∈ program ∧
      a = ⟨name, fun m => e.eval py environ name m⟩ := by
  unfold body
  rw [List.mem_map]
  constructor
  · rintro ⟨⟨name, e⟩, hmem, rfl⟩
    exact ⟨name, e, hmem, rfl⟩
  · rintro ⟨name, e, hmem, rfl⟩
    exact ⟨(name, e), hmem, rfl⟩

/-- The body gets to its end when every number can be read. -/
theorem body_ok_iff (py : Builtins F) (environ : Environ) (m : Module F) :
    (runAll (body py environ) m).2 = true ↔
      (∀ name kind, (name, Expr.getenv kind) ∈ program →
        (kind.read py (environ name)).isSome = true) ∧
      (rateLimitsOf environ).isSome = true := by
  -- whether an expression raises depends on the environment, not on the store
  -- whether an assignment can be evaluated does not depend on the names before it
  have hvalue : ∀ a ∈ body py environ, ∀ store,
      (a.value store).isSome = true ↔ (a.value fun _ => none).isSome = true := by
    intro a ha store
    obtain ⟨name, e, -, rfl⟩ := mem_body.mp ha
    rw [eval_isSome_iff, eval_isSome_iff]
  rw [runAll_ok_iff hvalue]
  constructor
  · intro h
    have heval : ∀ name e, (name, e) ∈ program →
        (e.eval py environ name fun _ => none).isSome = true := by
      intro name e hmem
      exact h _ (mem_body.mpr ⟨name, e, hmem, rfl⟩)
    refine ⟨fun name kind hmem => heval name _ hmem, ?_⟩
    have hrates : (.MODEL_RATE_LIMITS, Expr.rateLimits) ∈ program := by decide
    exact ((eval_isSome_iff py environ _ _ _).mp (heval _ _ hrates)).2 rfl
  · rintro ⟨hsettings, hrates⟩ a ha
    obtain ⟨name, e, hmem, rfl⟩ := mem_body.mp ha
    rw [eval_isSome_iff]
    exact ⟨fun kind he => hsettings name kind (he ▸ hmem), fun _ => hrates⟩

theorem body_split {py : Builtins F} {environ : Environ} {before after : List (Name × Expr)}
    {name : Name} {e : Expr} (h : program = before ++ (name, e) :: after) :
    body py environ = before.map (fun a => ⟨a.1, fun m => a.2.eval py environ a.1 m⟩)
      ++ ⟨name, fun m => e.eval py environ name m⟩
        :: after.map (fun a => ⟨a.1, fun m => a.2.eval py environ a.1 m⟩) := by
  rw [body, h, List.map_append, List.map_cons]

/-- The name of an assignment that reads another name, and that name: it is
assigned before and not again. -/
theorem program_dependents {name : Name} {e : Expr} (hmem : (name, e) ∈ program) :
    (e = .minMaxTokens → name = .MODEL_MIN_MAX_TOKENS) ∧
      (e = .routerPrompt → name = .ROUTER_SYSTEM_PROMPT) := by
  have hall : ∀ a ∈ program, (a.2 = .minMaxTokens → a.1 = .MODEL_MIN_MAX_TOKENS) ∧
      (a.2 = .routerPrompt → a.1 = .ROUTER_SYSTEM_PROMPT) := by
    decide
  exact hall (name, e) hmem

/-- A name that the body assigns last at some place has the value of the
expression there; the names not assigned from there on are seen as in the end. -/
theorem body_name {py : Builtins F} {environ : Environ} {before after : List (Name × Expr)}
    {name : Name} {e : Expr} (hsplit : program = before ++ (name, e) :: after)
    (hlast : name ∉ after.map Prod.fst) {m : Module F}
    (hok : (runAll (body py environ) m).2 = true) :
    ∃ seen : Module F,
      (runAll (body py environ) m).1 name = e.eval py environ name seen ∧
      ∀ b ∉ ((name, e) :: after).map Prod.fst,
        (runAll (body py environ) m).1 b = seen b := by
  rw [body_split hsplit] at hok ⊢
  refine ⟨_, runAll_value ?_ hok, fun b hb => runAll_seen ?_ hok⟩
  · rw [List.map_map]
    exact hlast
  · rw [List.map_cons, List.map_map]
    exact hb

theorem scalarAt_congr {m m' : Module F} {name : Name} (h : m name = m' name) :
    scalarAt m name = scalarAt m' name := by
  unfold scalarAt
  rw [h]

theorem dictAt_congr {m m' : Module F} {name : Name} (h : m name = m' name) :
    dictAt m name = dictAt m' name := by
  unfold dictAt
  rw [h]

theorem override_eval_congr {m m' : Module F} {o : Override}
    (h : ∀ source ∈ o.sources, m source = m' source) : o.eval m = o.eval m' := by
  cases o with
  | copy source =>
    rw [Override.eval, Override.eval, scalarAt_congr (h source (by simp [Override.sources]))]
  | roles model =>
    rw [Override.eval, Override.eval, dictAt_congr (h .MODELS (by simp [Override.sources])),
      scalarAt_congr (h model (by simp [Override.sources]))]
  | window model ctx =>
    rw [Override.eval, Override.eval, scalarAt_congr (h model (by simp [Override.sources])),
      scalarAt_congr (h ctx (by simp [Override.sources]))]
  | const n => rfl

/-- The home-server block reads names that the body assigns. -/
theorem exprOf_source {name source : Name} {o : Override} (ho : overrides.lookup name = some o)
    (hsource : source ∈ o.sources) : ∃ e, exprOf source = some e := by
  have hall : ∀ p ∈ overrides, ∀ source ∈ p.2.sources, (exprOf source).isSome = true := by
    decide
  exact Option.isSome_iff_exists.mp (hall (name, o) (mem_of_lookup ho) source hsource)

theorem ownValue_getenv {py : Builtins F} {environ : Environ} {name : Name} {kind : Kind}
    (h : exprOf name = some (.getenv kind)) :
    ownValue py environ name = kind.read py (environ name) := by
  unfold ownValue
  rw [h]

theorem body_own {py : Builtins F} {environ : Environ} {name : Name} {m : Module F}
    (hok : (runAll (body py environ) m).2 = true)
    (h : (∃ kind, exprOf name = some (.getenv kind)) ∨ exprOf name = some .models) :
    (runAll (body py environ) m).1 name = ownValue py environ name := by
  rcases h with ⟨kind, h⟩ | h
  · obtain ⟨before, after, hsplit, hlast⟩ := exprOf_split h
    obtain ⟨seen, hvalue, -⟩ := body_name hsplit hlast hok
    rw [hvalue, ownValue_getenv h]
    rfl
  · obtain ⟨before, after, hsplit, hlast⟩ := exprOf_split h
    obtain ⟨seen, hvalue, -⟩ := body_name hsplit hlast hok
    rw [hvalue]
    unfold ownValue
    rw [h]
    rfl

/-- What the body leaves in each name. -/
theorem body_value {py : Builtins F} {environ : Environ} {m : Module F}
    (hok : (runAll (body py environ) m).2 = true) {name : Name} {e : Expr}
    (h : exprOf name = some e) :
    (runAll (body py environ) m).1 name = baseValue py environ name := by
  obtain ⟨before, after, hsplit, hlast⟩ := exprOf_split h
  obtain ⟨seen, hvalue, -⟩ := body_name hsplit hlast hok
  unfold baseValue
  rw [h, Option.bind_some]
  cases e with
  | getenv kind => exact hvalue
  | models => exact hvalue
  | rateLimits => exact hvalue
  | contextWindows => exact hvalue
  | defaultContextWindow => exact hvalue
  | minMaxTokens =>
    have hname := (program_dependents (mem_program_of_exprOf h)).1 rfl
    subst hname
    have hcut : program = program.take 18
        ++ (.MODEL_MIN_MAX_TOKENS, Expr.minMaxTokens) :: program.drop 19 := rfl
    obtain ⟨seen, hvalue, hseen⟩ := body_name hcut (by decide) hok
    have hsource := hseen .GPT_OSS_20B_MIN_MAX_TOKENS (by decide)
    rw [body_own hok (Or.inl ⟨.product 512, by decide⟩)] at hsource
    rw [hvalue, Expr.eval, Expr.eval, scalarAt_congr hsource]
  | routerPrompt =>
    have hname := (program_dependents (mem_program_of_exprOf h)).2 rfl
    subst hname
    have hcut : program = program.take 81
        ++ (.ROUTER_SYSTEM_PROMPT, Expr.routerPrompt) :: program.drop 82 := rfl
    obtain ⟨seen, hvalue, hseen⟩ := body_name hcut (by decide) hok
    have hsource := hseen .MODELS (by decide)
    rw [body_own hok (Or.inr (by decide))] at hsource
    rw [hvalue, Expr.eval, Expr.eval, dictAt_congr hsource]

/-- The home-server block assigns each of its names what it was before it. -/
theorem overrideBlock_value (m : Module F) (name : Name) :
    (runAll overrideBlock m).1 name
      = match overrides.lookup name with
        | some o => some (o.eval m)
        | none => m name := by
  cases name <;> rfl

theorem overrideBlock_frame (m : Module F) {name : Name} (h : overrides.lookup name = none) :
    (runAll overrideBlock m).1 name = m name := by
  rw [overrideBlock_value, h]

theorem body_getenv {py : Builtins F} {environ : Environ} {m : Module F}
    (hok : (runAll (body py environ) m).2 = true) {name : Name} {kind : Kind}
    (h : exprOf name = some (.getenv kind)) :
    (runAll (body py environ) m).1 name = kind.read py (environ name) := by
  rw [body_own hok (Or.inl ⟨kind, h⟩), ownValue_getenv h]

theorem isSet_optional {py : Builtins F} {environ : Environ} {m : Module F} {name : Name}
    (h : m name = Kind.optional.read py (environ name)) :
    (scalarAt m name).isSet = true ↔ IsSet environ name := by
  unfold scalarAt IsSet
  rw [h]
  cases environ name with
  | none => simp [Kind.read, Scalar.isSet]
  | some t => simp [Kind.read, Scalar.isSet]

theorem onHomeserver_iff {py : Builtins F} {environ : Environ} {m : Module F}
    (h : m .LLM_BACKEND = (Kind.lowered "nim".toList).read py (environ .LLM_BACKEND)) :
    onHomeserver m = true ↔ Homeserver py environ := by
  unfold onHomeserver scalarAt Homeserver
  rw [h]
  simp [Kind.read]

theorem execConfig_ok {py : Builtins F} {environ : Environ} {m : Module F}
    (hok : (runAll (body py environ) m).2 = true) :
    execConfig py environ m = (overridden (runAll (body py environ) m).1,
      startsUp (overridden (runAll (body py environ) m).1)) := by
  unfold execConfig
  dsimp only
  rw [if_pos hok]

theorem overridden_frame (m : Module F) {name : Name} (h : overrides.lookup name = none) :
    overridden m name = m name := by
  unfold overridden
  split
  next => exact overrideBlock_frame m h
  next => rfl

/-- What the module holds when its body has got to the end. -/
theorem overridden_value {py : Builtins F} {environ : Environ} {m : Module F}
    (hok : (runAll (body py environ) m).2 = true) {name : Name} {e : Expr}
    (he : exprOf name = some e) :
    overridden (runAll (body py environ) m).1 name = setTo py environ name := by
  have hbase := body_value hok he
  have hbackend : exprOf .LLM_BACKEND = some (.getenv (.lowered "nim".toList)) := by decide
  have hhome := onHomeserver_iff (body_getenv hok hbackend)
  unfold overridden setTo
  by_cases h : Homeserver py environ
  · rw [if_pos (hhome.mpr h), overrideBlock_value]
    cases ho : overrides.lookup name with
    | none => exact hbase
    | some o =>
      have hsources : o.eval (runAll (body py environ) m).1
          = o.eval (baseValue py environ) := by
        refine override_eval_congr fun source hsource => ?_
        obtain ⟨e', he'⟩ := exprOf_source ho hsource
        exact body_value hok he'
      simp only [h, if_true]
      rw [hsources]
  · rw [if_neg (fun hon => h (hhome.mp hon))]
    cases ho : overrides.lookup name with
    | none => exact hbase
    | some o =>
      simp only [h, if_false]
      exact hbase

/-- The module gets to its end exactly in these environments. -/
theorem execConfig_ok_iff (py : Builtins F) (environ : Environ) (m : Module F) :
    (execConfig py environ m).2 = true ↔ Executes py environ := by
  have hbody := body_ok_iff py environ m
  cases hok : (runAll (body py environ) m).2 with
  | false =>
    have hraises : (execConfig py environ m).2 = false := by
      unfold execConfig
      dsimp only
      rw [if_neg (by simp [hok])]
    rw [hraises]
    refine ⟨fun h => absurd h (by simp), fun h => ?_⟩
    rw [hbody.mpr ⟨h.settings, h.rateLimits⟩] at hok
    exact absurd hok (by simp)
  | true =>
    have hoptional : ∀ name, exprOf name = some (.getenv .optional) →
        overrides.lookup name = none →
        ((scalarAt (overridden (runAll (body py environ) m).1) name).isSet = true ↔
          IsSet environ name) := by
      intro name he hname
      have hvalue := body_getenv hok he
      rw [← overridden_frame (runAll (body py environ) m).1 hname] at hvalue
      exact isSet_optional hvalue
    have hbackend : onHomeserver (overridden (runAll (body py environ) m).1) = true ↔
        Homeserver py environ := by
      refine onHomeserver_iff ?_
      rw [overridden_frame _ (by decide)]
      exact body_getenv hok (by decide)
    rw [execConfig_ok hok]
    simp only [startsUp, Bool.and_eq_true, Bool.or_eq_true, hbackend,
      hoptional .NVIDIA_API_KEY (by decide) (by decide),
      hoptional .DATABASE_URL (by decide) (by decide),
      hoptional .REDIS_URL (by decide) (by decide),
      hoptional .JWT_SECRET_KEY (by decide) (by decide)]
    obtain ⟨hsettings, hrates⟩ := hbody.mp hok
    constructor
    · rintro ⟨⟨⟨hnvidia, hdatabase⟩, hredis⟩, hjwt⟩
      exact ⟨hsettings, hrates, hnvidia, hdatabase, hredis, hjwt⟩
    · intro h
      exact ⟨⟨⟨h.nvidia, h.database⟩, h.redis⟩, h.jwt⟩

end Eidetic.Config
