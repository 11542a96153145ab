import Eidetic.Cache.Keys
import Eidetic.Graph.EntityCap
import Eidetic.Lib.CacheAside
import Eidetic.Py.Decimal
import Eidetic.Py.Spacing
import Mathlib.Algebra.Order.Ring.Rat

/-!
# What the graph tells about a message

`query_context` and `query_by_keywords`. The full-text index finds entities by
the words of a message, and the user's own are written down with their
relations. The text is kept in Redis for a minute under a key of the user, and
all keys of a user are deleted when the graph changes.

What a query gives, the graph of the user has given before to the same message,
lower-cased, within a minute and the time in which a query stores its text
(`given_within_a_minute`). After the keys of a user are deleted, the cache has
nothing that was read before they were searched for, unless a query that had
read by then stores its text later (`given_since`).

The cache is an instance of the library's `CacheAside`: `contextSpec` says what
the key of a query is, which answers are worth keeping, and what is read from
the graph, and the library says how old what a caller is given can be. Each
query and each change of the graph is a sequence of steps there, with other
calls in between, and Redis may lose or refuse a command.

What is of this repository are two things. Which queries share a key: the text
that is hashed tells the kind, the limit and the lower-cased message, whatever
these have in them (`cacheKey_eq_iff`), by what `str.lower` leaves of the ends
of such texts (`LowersLetters`). And what an answer is made of: every line tells
of an entity or a relation of the user's own graph (`tells_of_graphAnswer`),
whatever the index has found.
-/

namespace Eidetic.Graph

open Eidetic.Lib Eidetic.Py
open Eidetic.Cache (Hashing)

/-- `_GRAPH_CACHE_TTL`, in seconds. -/
def graphCacheTtl : Nat := 60

/-- `_STOPWORDS`. -/
def stopwords : List Text :=
  ["the", "this", "that", "and", "for", "are", "was", "has", "had",
    "but", "not", "with", "from", "they", "you", "its", "all", "can",
    "just", "about", "been", "what", "when", "where", "who", "how",
    "which", "will", "would", "could", "should", "does", "into", "than"].map String.toList

/-- Which of the two functions is called. -/
inductive ContextKind
  | context
  | keywords
deriving DecidableEq

/-- A call; the `min_score` is always its default. -/
structure ContextQuery where
  user : Nat
  kind : ContextKind
  text : Text
  limit : Nat
deriving DecidableEq

/-- The graph of each user. -/
abbrev Graphs (τ : Type) := Nat → EntityGraph τ

/-- A node that the full-text index has found. -/
structure Hit where
  user : Nat
  name : Text
  score : Rat

/-- What is not ours: the functions on texts, the index, and the order of rows of
the same score. -/
structure GraphReader (τ : Type) where
  hashing : Hashing
  /-- `db.index.fulltext.queryNodes`. -/
  index : Graphs τ → Text → List Hit
  /-- `ORDER BY score DESC`. -/
  byScore : {ρ : Type} → List (Rat × ρ) → List (Rat × ρ)
  perm : ∀ {ρ : Type} (rows : List (Rat × ρ)), (byScore rows).Perm rows
  sorted : ∀ {ρ : Type} (rows : List (Rat × ρ)), (byScore rows).Pairwise fun a b => b.1 ≤ a.1

/-! ## The key -/

/-- What is hashed for the key. -/
def ContextQuery.cacheText (q : ContextQuery) : Text :=
  match q.kind with
  | .context => "ctx:".toList ++ q.text ++ ":".toList ++ decimal q.limit ++ ":0.5".toList
  | .keywords => "kw:".toList ++ q.text ++ ":".toList ++ decimal q.limit

def lowered (h : Hashing) (q : ContextQuery) : Text := strip (h.lower q.cacheText)

/-- `hexdigest()[:32]`. -/
def digest (h : Hashing) (q : ContextQuery) : Text := (h.sha256 (lowered h q)).take 32

/-- What the keys of a user begin with. -/
def keyPrefix (user : Nat) : Text := "graph:".toList ++ decimal user ++ ":".toList

/-- `_cache_key`. -/
def cacheKey (h : Hashing) (q : ContextQuery) : Text := keyPrefix q.user ++ digest h q

/-! ## The answer -/

variable {τ : Type}

/-- The words that are searched for. -/
def queryWords (h : Hashing) (q : ContextQuery) : List Text :=
  (words q.text).filter fun w => decide (2 < w.length) &&
    (q.kind == .context || decide (h.lower w ∉ stopwords))

/-- `OPTIONAL MATCH (e)-[r:RELATED_TO]->(other)`: the labels and the ends. -/
def outgoing (g : EntityGraph τ) (name : Text) : List (Text × Text) :=
  (g.edgeKeys.filter fun e => e.src = name).map fun e => (e.label, e.dst)

/-- The entities of the user that the index finds, with their scores. -/
def ownHits (r : GraphReader τ) (graphs : Graphs τ) (q : ContextQuery) :
    List (Rat × Text × Entity τ) :=
  (r.index graphs (joinWords (queryWords r.hashing q))).filterMap fun hit =>
    if hit.user = q.user then
      ((graphs q.user).nodes.find? fun n => n.1 = hit.name).map fun n => (hit.score, n)
    else none

/-- A row of `query_context`. -/
structure ContextRow where
  name : Text
  type : Option Text
  rels : List (Text × Text)

def contextRows (r : GraphReader τ) (graphs : Graphs τ) (q : ContextQuery) : List ContextRow :=
  let hits := (ownHits r graphs q).filter fun hit => decide (1 / 2 ≤ hit.1)
  let rows := hits.map fun (score, name, e) =>
    (score, ContextRow.mk name e.type (outgoing (graphs q.user) name))
  ((r.byScore rows).take q.limit).map Prod.snd

def contextLine (row : ContextRow) : Text :=
  let rels := row.rels.filter fun rel => decide (rel.2 ≠ [])
  "- ".toList ++ row.name ++ " (".toList ++ row.type.getD "None".toList ++ ")".toList ++
    if rels = [] then []
    else ": ".toList ++ ", ".toList.intercalate ((rels.take 4).map fun (rel, target) =>
      rel ++ " ".toList ++ target)

/-- A row of `query_by_keywords`: an entity and one of its relations, if it has one. -/
structure KeywordRow where
  source : Text
  rel : Option (Text × Text)

def keywordRows (r : GraphReader τ) (graphs : Graphs τ) (q : ContextQuery) : List KeywordRow :=
  let rows := (ownHits r graphs q).flatMap fun (score, name, _) =>
    match outgoing (graphs q.user) name with
    | [] => [(score, KeywordRow.mk name none)]
    | rels => rels.map fun rel => (score, KeywordRow.mk name (some rel))
  ((r.byScore rows).take q.limit).map Prod.snd

/-- The edge of a row, if no part of it is empty. -/
def keywordEdge (row : KeywordRow) : Option (Text × Text × Text) :=
  row.rel.bind fun (rel, target) =>
    if row.source = [] ∨ rel = [] ∨ target = [] then none else some (row.source, rel, target)

def keywordLines (rows : List KeywordRow) : List Text :=
  (rows.filterMap keywordEdge).eraseDups.map fun (src, rel, tgt) =>
    src ++ " --[".toList ++ rel ++ "]→ ".toList ++ tgt

def answerLines (r : GraphReader τ) (graphs : Graphs τ) (q : ContextQuery) : List Text :=
  match q.kind with
  | .context => (contextRows r graphs q).map contextLine
  | .keywords => keywordLines (keywordRows r graphs q)

/-- What the graph says of a message, if there is something. -/
def graphAnswer (r : GraphReader τ) (graphs : Graphs τ) (q : ContextQuery) : Option Text :=
  let lines := answerLines r graphs q
  if lines = [] then none else some (joinLines lines)

/-- The two functions, as callers of a cache beside the graph. -/
def contextSpec (r : GraphReader τ) : AsideSpec (Graphs τ) Text ContextQuery Text where
  key := cacheKey r.hashing
  worth q := !(queryWords r.hashing q).isEmpty
  ask _ := graphAnswer r
  ttl := graphCacheTtl

/-! ## Which queries share a key -/

/-- What `str.lower` does with the ends of the texts that are hashed. -/
structure LowersLetters (lower : Text → Text) : Prop where
  /-- What has no letters stays as it is. -/
  ends : ∀ t s : Text, (∀ c ∈ s, c.isDigit = true ∨ c = ':' ∨ c = '.') → lower (t ++ s) = lower t ++ s
  head : ∀ (c : Char) (t : Text), c.isLower = true → (lower (c :: t)).head? = some c

/-- What the text of a message is lower-cased with. -/
def ContextKind.heading : ContextKind → Text
  | .context => "ctx:".toList
  | .keywords => "kw:".toList

/-- Calls of one user that are the same up to upper and lower case. -/
structure SameQuestion (lower : Text → Text) (q q' : ContextQuery) : Prop where
  user : q'.user = q.user
  kind : q'.kind = q.kind
  limit : q'.limit = q.limit
  text : lower (q'.kind.heading ++ q'.text) = lower (q.kind.heading ++ q.text)

/-- What is behind the message in the text that is hashed. -/
def ContextQuery.tail (q : ContextQuery) : Text :=
  match q.kind with
  | .context => ':' :: decimal q.limit ++ ":0.5".toList
  | .keywords => ':' :: decimal q.limit

theorem cacheText_eq (q : ContextQuery) : q.cacheText = q.kind.heading ++ q.text ++ q.tail := by
  unfold ContextQuery.cacheText ContextQuery.tail ContextKind.heading
  cases q.kind with
  | context => simp
  | keywords => simp

theorem tail_chars (q : ContextQuery) : ∀ c ∈ q.tail, c.isDigit = true ∨ c = ':' ∨ c = '.' := by
  intro c hc
  have hnumber : ∀ c ∈ ':' :: decimal q.limit, c.isDigit = true ∨ c = ':' ∨ c = '.' := by
    intro c hc
    rcases List.mem_cons.mp hc with rfl | hdigit
    · exact Or.inr (Or.inl rfl)
    · exact Or.inl (isDigit_of_mem_decimal hdigit)
  unfold ContextQuery.tail at hc
  split at hc
  next =>
    rcases List.mem_append.mp hc with hnum | hlast
    · exact hnumber c hnum
    · have hcases : c = ':' ∨ c = '0' ∨ c = '.' ∨ c = '5' := by simpa using hlast
      rcases hcases with rfl | rfl | rfl | rfl <;> simp
  next => exact hnumber c hc

theorem lowered_text (h : Hashing) (hlower : LowersLetters h.lower) (q : ContextQuery) :
    h.lower q.cacheText = h.lower (q.kind.heading ++ q.text) ++ q.tail := by
  rw [cacheText_eq]
  exact hlower.ends _ _ (tail_chars q)

theorem head_lowered (h : Hashing) (hlower : LowersLetters h.lower) (q : ContextQuery) :
    (h.lower (q.kind.heading ++ q.text)).head? = q.kind.heading.head? := by
  cases q.kind with
  | context => exact hlower.head 'c' _ rfl
  | keywords => exact hlower.head 'k' _ rfl

theorem lower_ne_nil (h : Hashing) (hlower : LowersLetters h.lower) (q : ContextQuery) :
    h.lower (q.kind.heading ++ q.text) ≠ [] := by
  intro hnil
  have hhead := head_lowered h hlower q
  rw [hnil] at hhead
  cases hk : q.kind with
  | context => exact absurd (hhead.trans (by rw [hk])) (by simp [ContextKind.heading])
  | keywords => exact absurd (hhead.trans (by rw [hk])) (by simp [ContextKind.heading])

theorem head_text (h : Hashing) (hlower : LowersLetters h.lower) (q : ContextQuery) :
    (h.lower (q.kind.heading ++ q.text) ++ q.tail).head? = q.kind.heading.head? := by
  rw [List.head?_append_of_ne_nil _ (lower_ne_nil h hlower q)]
  exact head_lowered h hlower q

theorem trimmed_lower (h : Hashing) (hlower : LowersLetters h.lower) (q : ContextQuery) :
    Trimmed (h.lower q.cacheText) := by
  rw [lowered_text h hlower]
  refine ⟨?_, ?_⟩
  · intro c hc
    rw [head_text h hlower] at hc
    cases hk : q.kind with
    | context =>
      rw [hk] at hc
      obtain rfl : 'c' = c := Option.some.inj hc
      rfl
    | keywords =>
      rw [hk] at hc
      obtain rfl : 'k' = c := Option.some.inj hc
      rfl
  · intro c hc
    have htail : q.tail ≠ [] := by
      unfold ContextQuery.tail
      split <;> simp
    rw [List.getLast?_append_of_ne_nil _ htail] at hc
    rcases tail_chars q c (List.mem_of_mem_getLast? hc) with hdigit | rfl | rfl
    · exact isSpace_of_isDigit hdigit
    · rfl
    · rfl

/-- The text that is hashed tells the kind, the limit and the message in lower case. -/
theorem sameQuestion_of_lowered (h : Hashing) (hlower : LowersLetters h.lower) {q q' : ContextQuery}
    (huser : q'.user = q.user) (heq : lowered h q' = lowered h q) : SameQuestion h.lower q q' := by
  have htext : h.lower q'.cacheText = h.lower q.cacheText := by
    unfold lowered at heq
    rwa [strip_trimmed (trimmed_lower h hlower q'), strip_trimmed (trimmed_lower h hlower q)] at heq
  rw [lowered_text h hlower, lowered_text h hlower] at htext
  -- the kinds have headings of different first letters
  have hkind : q'.kind = q.kind := by
    have hhead := (head_text h hlower q').symm.trans
      ((congrArg List.head? htext).trans (head_text h hlower q))
    cases hk : q.kind <;> cases hk' : q'.kind <;> rw [hk, hk'] at hhead <;>
      first | rfl | exact absurd hhead (by simp [ContextKind.heading])
  -- the limit stands behind the last colon
  have hcolon : ∀ n, ':' ∉ decimal n := fun n => not_mem_decimal rfl
  have hnumber : h.lower (q'.kind.heading ++ q'.text) ++ ':' :: decimal q'.limit
      = h.lower (q.kind.heading ++ q.text) ++ ':' :: decimal q.limit := by
    unfold ContextQuery.tail at htext
    rw [hkind] at htext ⊢
    cases hk : q.kind with
    | context =>
      rw [hk] at htext
      dsimp only at htext
      rw [← List.append_assoc, ← List.append_assoc] at htext
      exact List.append_cancel_right htext
    | keywords =>
      rw [hk] at htext
      exact htext
  obtain ⟨hmessage, hlimit⟩ := cut_last (hcolon _) (hcolon _) hnumber
  exact ⟨huser, hkind, decimal_injective hlimit, hmessage⟩

theorem lowered_of_sameQuestion (h : Hashing) (hlower : LowersLetters h.lower) {q q' : ContextQuery}
    (hsame : SameQuestion h.lower q q') : lowered h q' = lowered h q := by
  have htail : q'.tail = q.tail := by
    unfold ContextQuery.tail
    rw [hsame.kind, hsame.limit]
  unfold lowered
  rw [lowered_text h hlower, lowered_text h hlower, hsame.text, htail]

theorem not_colon_user (user : Nat) : ':' ∉ decimal user := not_mem_decimal rfl

/-- The keys of a user are those with the user's prefix. -/
theorem startsWith_cacheKey_iff (h : Hashing) (q : ContextQuery) (user : Nat) :
    startsWith (cacheKey h q) (keyPrefix user) = true ↔ q.user = user := by
  rw [startsWith_iff]
  constructor
  · rintro ⟨rest, hrest⟩
    unfold cacheKey keyPrefix at hrest
    rw [List.append_assoc, List.append_assoc, List.append_assoc, List.append_assoc] at hrest
    exact (decimal_injective
      (cut_first (not_colon_user user) (not_colon_user q.user) (List.append_cancel_left hrest)).1).symm
  · rintro rfl
    exact List.prefix_append _ _

theorem cacheKey_inj {h : Hashing} {q q' : ContextQuery} (heq : cacheKey h q' = cacheKey h q) :
    q'.user = q.user ∧ digest h q' = digest h q := by
  have hprefix : startsWith (cacheKey h q') (keyPrefix q.user) = true := by
    rw [heq]
    exact (startsWith_cacheKey_iff h q q.user).mpr rfl
  have huser := (startsWith_cacheKey_iff h q' q.user).mp hprefix
  refine ⟨huser, ?_⟩
  unfold cacheKey at heq
  rw [huser] at heq
  exact List.append_cancel_left heq

/-- No two of some queries have the same digest, unless their texts are the same. -/
def Apart (h : Hashing) (asked : ContextQuery → Prop) : Prop :=
  ∀ q q', asked q → asked q' → digest h q' = digest h q → lowered h q' = lowered h q

/-- `str.lower` and sha256, on the query below. -/
def plainHashing : Hashing where
  lower t := t.map fun c => if c = 'K' then 'k' else c
  sha256 t :=
    if t = "ctx:kafka:50:0.5".toList then
      "4ca2f12649741c8a1fadb30f6925a8c318adc3b78fb6d386e5f764b4bf243c80".toList
    else t

theorem lowersLetters_plain : LowersLetters plainHashing.lower where
  ends t s hs := by
    show (t ++ s).map _ = t.map _ ++ s
    rw [List.map_append]
    congr 1
    refine (List.map_congr_left fun c hc => if_neg ?_).trans (List.map_id' s)
    rintro rfl
    rcases hs 'K' hc with h | h | h <;> exact absurd h (by decide)
  head c t hc := by
    have hne : c ≠ 'K' := by
      rintro rfl
      exact absurd hc (by decide)
    exact congrArg some (if_neg hne)

def kafkaQuery : ContextQuery := ⟨1, .context, "Kafka".toList, 50⟩

/-- The same in lower case. -/
def plainQuery : ContextQuery := ⟨1, .context, "kafka".toList, 50⟩

theorem apart_kafka : Apart plainHashing fun q => q = kafkaQuery ∨ q = plainQuery := by
  have hkafka : lowered plainHashing kafkaQuery = lowered plainHashing plainQuery := by decide
  rintro q q' (rfl | rfl) (rfl | rfl) _
  · rfl
  · exact hkafka.symm
  · exact hkafka
  · rfl

/-- Queries share a key when they are those of one user and the same in lower
case, and the deletion of a user's keys meets the keys of that user. -/
theorem cacheKey_eq_iff (h : Hashing) (hlower : LowersLetters h.lower) {asked : ContextQuery → Prop}
    (hapart : Apart h asked) :
    (∀ q q', asked q → asked q' → (cacheKey h q' = cacheKey h q ↔ SameQuestion h.lower q q')) ∧
    ∀ q user, startsWith (cacheKey h q) (keyPrefix user) = true ↔ q.user = user := by
  refine ⟨fun q q' hq hq' => ⟨fun heq => ?_, fun hsame => ?_⟩, startsWith_cacheKey_iff h⟩
  · obtain ⟨huser, hdigest⟩ := cacheKey_inj heq
    exact sameQuestion_of_lowered h hlower huser (hapart q q' hq hq' hdigest)
  · unfold cacheKey digest
    rw [hsame.user, lowered_of_sameQuestion h hlower hsame]

theorem cacheKey_eq_iff_kafka :
    cacheKey plainHashing plainQuery = cacheKey plainHashing kafkaQuery ∧
      ¬ startsWith (cacheKey plainHashing kafkaQuery) (keyPrefix 11) = true := by
  have h := cacheKey_eq_iff plainHashing lowersLetters_plain apart_kafka
  refine ⟨(h.1 kafkaQuery plainQuery (Or.inl rfl) (Or.inr rfl)).mpr ⟨rfl, rfl, rfl, ?_⟩, ?_⟩
  · decide
  · intro hstarts
    exact absurd ((h.2 kafkaQuery 11).mp hstarts) (by decide)

/-! ## What a text is made of -/

/-- A line that says what a graph has. -/
def Tells (g : EntityGraph τ) (kind : ContextKind) (line : Text) : Prop :=
  match kind with
  | .context => ∃ row : ContextRow, line = contextLine row ∧
      (∃ e, (row.name, e) ∈ g.nodes ∧ e.type = row.type) ∧
      ∀ rel ∈ row.rels, ⟨row.name, rel.2, rel.1⟩ ∈ g.edgeKeys
  | .keywords => ∃ e ∈ g.edgeKeys,
      line = e.src ++ " --[".toList ++ e.label ++ "]→ ".toList ++ e.dst

theorem mem_outgoing {g : EntityGraph τ} {name : Text} {rel : Text × Text}
    (h : rel ∈ outgoing g name) : ⟨name, rel.2, rel.1⟩ ∈ g.edgeKeys := by
  obtain ⟨e, he, rfl⟩ := List.mem_map.mp h
  obtain ⟨hmem, hsrc⟩ := List.mem_filter.mp he
  rw [← of_decide_eq_true hsrc]
  exact hmem

theorem mem_ownHits {r : GraphReader τ} {graphs : Graphs τ} {q : ContextQuery}
    {hit : Rat × Text × Entity τ} (h : hit ∈ ownHits r graphs q) : hit.2 ∈ (graphs q.user).nodes := by
  obtain ⟨found, _, hfound⟩ := List.mem_filterMap.mp h
  split at hfound
  next =>
    obtain ⟨n, hn, rfl⟩ := Option.map_eq_some_iff.mp hfound
    exact List.mem_of_find?_eq_some hn
  next => exact absurd hfound (by simp)

/-- What is left of rows that are sorted and cut comes from one of the rows. -/
theorem exists_of_mem_rows (r : GraphReader τ) {ρ : Type} {rows : List (Rat × ρ)} {n : Nat} {row : ρ}
    (h : row ∈ ((r.byScore rows).take n).map Prod.snd) : ∃ score, (score, row) ∈ rows := by
  obtain ⟨⟨score, row⟩, hmem, rfl⟩ := List.mem_map.mp h
  exact ⟨score, (r.perm rows).subset (List.mem_of_mem_take hmem)⟩

theorem tells_contextLine {r : GraphReader τ} {graphs : Graphs τ} {q : ContextQuery} {row : ContextRow}
    (h : row ∈ contextRows r graphs q) : Tells (graphs q.user) .context (contextLine row) := by
  obtain ⟨score, hrow⟩ := exists_of_mem_rows r h
  obtain ⟨⟨score', name, e⟩, hhit, heq⟩ := List.mem_map.mp hrow
  obtain ⟨_, rfl⟩ := Prod.mk.inj heq
  have hnode := mem_ownHits (List.mem_of_mem_filter hhit)
  exact ⟨_, rfl, ⟨e, hnode, rfl⟩, fun rel hrel => mem_outgoing hrel⟩

theorem tells_keywordRow {r : GraphReader τ} {graphs : Graphs τ} {q : ContextQuery} {row : KeywordRow}
    (h : row ∈ keywordRows r graphs q) :
    ∀ rel ∈ row.rel, ⟨row.source, rel.2, rel.1⟩ ∈ (graphs q.user).edgeKeys := by
  obtain ⟨score, hrow⟩ := exists_of_mem_rows r h
  obtain ⟨⟨score', name, e⟩, _, hmem⟩ := List.mem_flatMap.mp hrow
  intro rel hrel
  dsimp only at hmem
  split at hmem
  next =>
    obtain ⟨_, rfl⟩ := Prod.mk.inj (List.mem_singleton.mp hmem)
    exact absurd hrel (by simp)
  next rels _ =>
    obtain ⟨rel', hrel', heq⟩ := List.mem_map.mp hmem
    obtain ⟨_, rfl⟩ := Prod.mk.inj heq
    obtain rfl := Option.some.inj hrel
    exact mem_outgoing hrel'

theorem tells_keywordLines {r : GraphReader τ} {graphs : Graphs τ} {q : ContextQuery} {line : Text}
    (h : line ∈ keywordLines (keywordRows r graphs q)) : Tells (graphs q.user) .keywords line := by
  obtain ⟨⟨src, label, dst⟩, hedge, rfl⟩ := List.mem_map.mp h
  obtain ⟨row, hrow, hkept⟩ := List.mem_filterMap.mp (List.mem_eraseDups.mp hedge)
  obtain ⟨⟨rel, target⟩, hrel, hsome⟩ := Option.bind_eq_some_iff.mp hkept
  dsimp only at hsome
  split at hsome
  next => exact absurd hsome (by simp)
  next =>
    obtain ⟨rfl, rfl, rfl⟩ : row.source = src ∧ rel = label ∧ target = dst := by
      simpa using hsome
    exact ⟨_, tells_keywordRow hrow _ hrel, rfl⟩

theorem tells_answerLines {r : GraphReader τ} {graphs : Graphs τ} {q : ContextQuery} {line : Text}
    (h : line ∈ answerLines r graphs q) : Tells (graphs q.user) q.kind line := by
  unfold answerLines at h
  split at h
  next hkind =>
    obtain ⟨row, hrow, rfl⟩ := List.mem_map.mp h
    rw [hkind]
    exact tells_contextLine hrow
  next hkind =>
    rw [hkind]
    exact tells_keywordLines h

/-- Whatever the index finds, a query tells what is in the graph of its user. -/
theorem tells_of_graphAnswer {r : GraphReader τ} {graphs : Graphs τ} {q : ContextQuery} {text : Text}
    (h : graphAnswer r graphs q = some text) :
    ∃ lines, text = joinLines lines ∧ ∀ line ∈ lines, Tells (graphs q.user) q.kind line := by
  unfold graphAnswer at h
  dsimp only at h
  split at h
  next => exact absurd h (by simp)
  next => exact ⟨_, (Option.some.inj h).symm, fun line hline => tells_answerLines hline⟩

/-! ## A query that is cached -/

open AsideSpec

def kafkaGraph : EntityGraph Nat where
  nodes := [("Kafka".toList, ⟨some "TECHNOLOGY".toList, 1⟩)]
  edges := []
  unique := by decide
  ends := by simp

def emptyGraph : EntityGraph Nat := ⟨[], [], List.nodup_nil, by simp⟩

/-- An index that finds the entity of the user. -/
def kafkaReader : GraphReader Nat where
  hashing := plainHashing
  index _ _ := [⟨1, "Kafka".toList, 1⟩]
  byScore rows := rows.insertionSort fun a b => b.1 ≤ a.1
  perm rows := List.perm_insertionSort _ rows
  sorted {ρ} rows := by
    have htotal : Std.Total fun a b : Rat × ρ => b.1 ≤ a.1 := ⟨fun a b => le_total _ _⟩
    have htrans : IsTrans (Rat × ρ) fun a b => b.1 ≤ a.1 := ⟨fun a b c hab hbc => le_trans hbc hab⟩
    exact List.pairwise_insertionSort _ _

theorem worth_kafka : (contextSpec kafkaReader).worth kafkaQuery = true := by decide

theorem ask_kafka : (contextSpec kafkaReader).ask 0 (fun _ => kafkaGraph) kafkaQuery
    = some "- Kafka (TECHNOLOGY)".toList := by decide +kernel

/-- A query fills the cache. -/
def filled : List (AsideInput (Graphs Nat) Text ContextQuery) :=
  [.look 0 kafkaQuery true, .read 0 true, .put 0 true]

theorem looksFor_filled : ∀ i ∈ filled, LooksFor (fun q => q = kafkaQuery ∨ q = plainQuery) i := by
  intro i hi c q reached heq
  subst heq
  have hlook : c = 0 ∧ q = kafkaQuery ∧ reached = true := by simpa [filled] using hi
  exact Or.inl hlook.2.1

theorem run_filled : run (contextSpec kafkaReader).next (start fun _ => kafkaGraph) filled =
    { now := 0
      store := fun _ => kafkaGraph
      cache := Function.update (fun _ => none) (cacheKey plainHashing kafkaQuery)
        (some ⟨"- Kafka (TECHNOLOGY)".toList, 60⟩)
      call := Function.update (fun _ => .idle) 0
        (.done kafkaQuery (some "- Kafka (TECHNOLOGY)".toList) 0) } := by
  have httl : (contextSpec kafkaReader).ttl = 60 := rfl
  simp [filled, run, next, looked, answered, moveTo, start, found, live, worth_kafka, ask_kafka, httl]
  rfl

theorem found_filled {k : Text} (hk : k ≠ cacheKey plainHashing kafkaQuery) :
    found (run (contextSpec kafkaReader).next (start fun _ => kafkaGraph) filled) k = none := by
  rw [run_filled]
  unfold found
  dsimp only
  rw [Function.update_of_ne hk]
  rfl

theorem call_filled (c : Nat) (q : ContextQuery) (a : Text) (t : Nat) :
    (run (contextSpec kafkaReader).next (start fun _ => kafkaGraph) filled).call c ≠ .read q a t := by
  rw [run_filled]
  dsimp only
  intro h
  rcases Nat.eq_zero_or_pos c with rfl | hc
  · rw [Function.update_self] at h
    cases h
  · rw [Function.update_of_ne (Nat.ne_of_gt hc)] at h
    cases h

/-- The graph is emptied, and the same is asked again. -/
def askedAgain : List (AsideInput (Graphs Nat) Text ContextQuery) :=
  filled ++ [.change fun _ => emptyGraph, .pass 59, .look 1 kafkaQuery true]

/-! ## Over a run -/

/-- In a run the graph of the user has given a text to the same message, from
what was in it, and not longer ago than a minute and the time `d`. -/
def GivenWithin (r : GraphReader τ) (graphs : Graphs τ)
    (is : List (AsideInput (Graphs τ) Text ContextQuery)) (d : Nat) (q : ContextQuery) (text : Text)
    (now : Nat) : Prop :=
  ∃ q' before after, is = before ++ after ∧ SameQuestion r.hashing.lower q q' ∧
    graphAnswer r (run (contextSpec r).next (start graphs) before).store q' = some text ∧
    (∃ lines, text = joinLines lines ∧ ∀ line ∈ lines,
      Tells ((run (contextSpec r).next (start graphs) before).store q.user) q.kind line) ∧
    (run (contextSpec r).next (start graphs) before).now ≤ now ∧
    now < (run (contextSpec r).next (start graphs) before).now + d + graphCacheTtl

/-- What a query gives, the graph of the user has given within a minute and the
time in which a query stores what it has read. -/
theorem given_within_a_minute (r : GraphReader τ) (hlower : LowersLetters r.hashing.lower)
    {asked : ContextQuery → Prop} (hapart : Apart r.hashing asked) {graphs : Graphs τ} {d : Nat}
    {is : List (AsideInput (Graphs τ) Text ContextQuery)} (hasked : ∀ i ∈ is, LooksFor asked i)
    (hin : Throughout (contextSpec r).next (InTime d) (start graphs) is) {c now : Nat} {q : ContextQuery}
    {text : Text}
    (h : (run (contextSpec r).next (start graphs) is).call c = .done q (some text) now) :
    GivenWithin r graphs is d q text now := by
  have hq : asked q := by
    have hof := callOf_run (p := contextSpec r) (s := start graphs) hasked (fun _ => trivial) c
    rwa [h] at hof
  obtain ⟨q', t, hq', hkey, ⟨before, after, heq, rfl, hask⟩, hle, hlt⟩ :=
    answered_of_done (p := contextSpec r) (by show 0 < graphCacheTtl; unfold graphCacheTtl; omega)
      hasked hin h
  have hsame := ((cacheKey_eq_iff r.hashing hlower hapart).1 q q' hq hq').mp hkey
  refine ⟨q', before, after, heq, hsame, hask, ?_, hle, hlt⟩
  have htells := tells_of_graphAnswer hask
  rwa [hsame.user, hsame.kind] at htells

theorem given_within_a_minute_kafka :
    GivenWithin kafkaReader (fun _ => kafkaGraph) askedAgain 0 kafkaQuery
      "- Kafka (TECHNOLOGY)".toList 59 := by
  have hasked : ∀ i ∈ askedAgain, LooksFor (fun q => q = kafkaQuery ∨ q = plainQuery) i := by
    intro i hi
    rcases List.mem_append.mp hi with hfilled | hrest
    · exact looksFor_filled i hfilled
    · intro c q reached heq
      subst heq
      have hlook : c = 1 ∧ q = kafkaQuery ∧ reached = true := by simpa using hrest
      exact Or.inl hlook.2.1
  have hin : Throughout (contextSpec kafkaReader).next (InTime 0) (start fun _ => kafkaGraph)
      askedAgain := by
    have hother : ∀ (s : Aside (Graphs Nat) Text ContextQuery Text)
        (i : AsideInput (Graphs Nat) Text ContextQuery), (∀ c taken, i ≠ .put c taken) → InTime 0 s i :=
      fun s i hne c taken _ _ _ heq _ => absurd heq (hne c taken)
    refine ⟨hother _ _ (by simp), hother _ _ (by simp), ?_, hother _ _ (by simp), hother _ _ (by simp),
      hother _ _ (by simp), trivial⟩
    exact fun _ _ _ _ _ _ _ => Nat.zero_le _
  refine given_within_a_minute kafkaReader lowersLetters_plain apart_kafka hasked hin (c := 1) ?_
  rw [askedAgain, run_append, run_filled]
  simp [run, next, looked, moveTo, found, live, worth_kafka, Function.update, Option.filter]
  rfl

/-- After the keys of a user are deleted, a cached text is one that the graph has
given since the search for the keys began. -/
theorem given_since (r : GraphReader τ) (hlower : LowersLetters r.hashing.lower)
    {asked : ContextQuery → Prop} (hapart : Apart r.hashing asked) {graphs : Graphs τ} {user : Nat}
    {before mid after : List (AsideInput (Graphs τ) Text ContextQuery)} {ks : List Text}
    (hasked : ∀ i ∈ before ++ (mid ++ .forget ks :: after), LooksFor asked i)
    (hfinds : FindsLasting (contextSpec r) (fun k => startsWith k (keyPrefix user) = true)
      (run (contextSpec r).next (start graphs) before) mid ks)
    (hlate : ∀ i ∈ mid ++ .forget ks :: after,
      NoLatePut (contextSpec r) (fun k => startsWith k (keyPrefix user) = true)
        (run (contextSpec r).next (start graphs) before) i)
    {q : ContextQuery} (hq : asked q) (huser : q.user = user) {l : Lease Text}
    (hfound : found (run (contextSpec r).next (start graphs) (before ++ (mid ++ .forget ks :: after)))
      (cacheKey r.hashing q) = some l) :
    ∃ q' pre post, mid ++ .forget ks :: after = pre ++ post ∧ SameQuestion r.hashing.lower q q' ∧
      graphAnswer r (run (contextSpec r).next (start graphs) (before ++ pre)).store q' = some l.token := by
  have hof : ∀ c, CallOf asked ((run (contextSpec r).next (start graphs) before).call c) :=
    callOf_run (fun i hi => hasked i (List.mem_append_left _ hi)) fun _ => trivial
  rw [run_append] at hfound
  obtain ⟨q', t, hq', hkey, pre, post, heq, _, hask⟩ :=
    asked_since hof hfinds (fun i hi => hasked i (List.mem_append_right _ hi)) hlate
      ((startsWith_cacheKey_iff r.hashing q user).mpr huser) hfound
  refine ⟨q', pre, post, heq, ((cacheKey_eq_iff r.hashing hlower hapart).1 q q' hq hq').mp hkey, ?_⟩
  rw [run_append]
  exact hask

/-- The keys of the user are deleted, and the graph is asked again. -/
def deletedThenAsked : List (AsideInput (Graphs Nat) Text ContextQuery) :=
  [.forget [cacheKey plainHashing kafkaQuery], .look 1 kafkaQuery true, .read 1 true, .put 1 true]

theorem given_since_kafka :
    ∃ q' pre post, deletedThenAsked = pre ++ post ∧ SameQuestion plainHashing.lower kafkaQuery q' ∧
      graphAnswer kafkaReader
        (run (contextSpec kafkaReader).next (start fun _ => kafkaGraph) (filled ++ pre)).store q'
        = some "- Kafka (TECHNOLOGY)".toList := by
  have hasked : ∀ i ∈ filled ++ ([] ++ deletedThenAsked),
      LooksFor (fun q => q = kafkaQuery ∨ q = plainQuery) i := by
    intro i hi
    rcases List.mem_append.mp hi with hfilled | hrest
    · exact looksFor_filled i hfilled
    · intro c q reached heq
      subst heq
      have hlook : c = 1 ∧ q = kafkaQuery ∧ reached = true := by simpa [deletedThenAsked] using hrest
      exact Or.inl hlook.2.1
  have hfinds : FindsLasting (contextSpec kafkaReader) (fun k => startsWith k (keyPrefix 1) = true)
      (run (contextSpec kafkaReader).next (start fun _ => kafkaGraph) filled) []
      [cacheKey plainHashing kafkaQuery] := by
    intro k _ hthere
    by_cases hk : k = cacheKey plainHashing kafkaQuery
    · exact List.mem_singleton.mpr hk
    · exact absurd (found_filled hk) (hthere [] [] rfl)
  have hlate : ∀ i ∈ [] ++ deletedThenAsked,
      NoLatePut (contextSpec kafkaReader) (fun k => startsWith k (keyPrefix 1) = true)
        (run (contextSpec kafkaReader).next (start fun _ => kafkaGraph) filled) i := by
    intro i _ c q a t _ hread
    exact absurd hread (call_filled c q a t)
  have hfound : found (run (contextSpec kafkaReader).next (start fun _ => kafkaGraph)
      (filled ++ ([] ++ deletedThenAsked))) (cacheKey kafkaReader.hashing kafkaQuery)
        = some ⟨"- Kafka (TECHNOLOGY)".toList, 60⟩ := by
    have httl : (contextSpec kafkaReader).ttl = 60 := rfl
    have hkey : (contextSpec kafkaReader).key kafkaQuery = cacheKey plainHashing kafkaQuery := rfl
    rw [List.nil_append, run_append, run_filled]
    simp [deletedThenAsked, run, next, looked, answered, moveTo, found, live, worth_kafka, ask_kafka,
      httl, hkey, Function.update, Option.filter]
    rfl
  exact given_since kafkaReader lowersLetters_plain apart_kafka hasked hfinds hlate (Or.inl rfl) rfl hfound

end Eidetic.Graph
