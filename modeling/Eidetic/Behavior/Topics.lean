import Eidetic.Lib.Tally
import Eidetic.Py.Text
import Mathlib.Data.Char
import Mathlib.Data.List.Lex

/-!
# Recurring topics

`services/behavior.py`: what is counted of a user's messages, in the order in
which they are processed, and the topics that recur. A keyword is counted as
long as it stays among the fifty of the table (`recurring_of_kept`); a table
that is full of old keywords lets no new one in (`newcomer_not_recurring`).

The profile is computed message by message, and its topics are a `Tally` of the
library: a table that counts keys and is cut to its fifty greatest counts after
each message (`topicsAfter_eq`). The facts about such tables are there: no count
is higher than the extractions, a key that is not evicted has one more after
each message that has it, and a full table of greater counts lets no new key in.
This module has what is of the source: how keywords are extracted, that a
message has each of them once (`extractions_eq`), and when
`_detect_recurring_patterns` reports one.

So a keyword is reported exactly when it was extracted three times since it was
last not in the table (`recurring_iff`). The order in which JSONB gives back the
keys decides which of equal counts is evicted; it is a parameter, and every
result is for all orders.
-/

namespace Eidetic.Behavior

open Eidetic.Lib Eidetic.Py

/-- `_STOP_WORDS`. -/
def stopWords : List Text :=
  ["the", "is", "at", "which", "on", "for", "and", "are", "was", "were",
    "been", "being", "have", "has", "had", "do", "does", "did", "will",
    "would", "could", "should", "may", "might", "shall", "can", "not",
    "this", "that", "these", "those", "with", "from", "about", "into",
    "through", "during", "before", "after", "above", "below", "between",
    "such", "each", "both", "few", "more", "most", "other", "some",
    "than", "then", "very", "just", "also", "can", "make", "use", "get",
    "like", "one", "two", "new", "how", "what", "why", "when", "where"].map String.toList

/-- `_MAX_TOPICS`. -/
def maxTopics : Nat := 50

/-- `string.punctuation`, the characters of ASCII that are printed and are no
letter, digit or blank. -/
def isPunctuation (c : Char) : Bool :=
  (0x21 ≤ c.toNat && c.toNat ≤ 0x2f) || (0x3a ≤ c.toNat && c.toNat ≤ 0x40) ||
    (0x5b ≤ c.toNat && c.toNat ≤ 0x60) || (0x7b ≤ c.toNat && c.toNat ≤ 0x7e)

/-- `w.strip(string.punctuation)`. -/
def stripPunctuation (w : Text) : Text :=
  ((w.dropWhile isPunctuation).reverse.dropWhile isPunctuation).reverse

def isKeyword (w : Text) : Bool := w.length > 4 && !stopWords.contains w

/-- `str.lower`, and the order in which JSONB gives back the keys of a dict. -/
structure BehaviorEnv where
  lower : Text → Text
  jsonb : Reordering Text

/-- `_extract_keywords`: it stops at the tenth. -/
def extractKeywords (b : BehaviorEnv) (message : Text) : List Text :=
  (((words (b.lower message)).map stripPunctuation).filter isKeyword).take 10

/-- What `update_behavior_profile` is called with. -/
structure Processed where
  queryType : Text
  message : Text
  toolNames : List Text := []
  modelUsed : Text

/-- The profile of a row; what is missing in it is read as empty. -/
structure Profile where
  queryTypes : List (Text × Nat) := []
  topicKeywords : List (Text × Nat) := []
  toolsUsed : List (Text × Nat) := []
  modelsUsed : List (Text × Nat) := []
  totalMessages : Nat := 0

/-- A row that is read. -/
def Profile.reloaded (b : BehaviorEnv) (p : Profile) : Profile :=
  { p with
    queryTypes := b.jsonb.order p.queryTypes
    topicKeywords := b.jsonb.order p.topicKeywords
    toolsUsed := b.jsonb.order p.toolsUsed
    modelsUsed := b.jsonb.order p.modelsUsed }

/-- The user's row after a message, a new one being empty. The top level of the
profile is copied, so it differs from the loaded one by its total and is written. -/
def updateBehaviorProfile (b : BehaviorEnv) (row : Option Profile) (m : Processed) : Profile :=
  let profile := (row.getD {}).reloaded b
  { queryTypes := tally profile.queryTypes [m.queryType]
    topicKeywords := cut maxTopics (tally profile.topicKeywords (extractKeywords b m.message))
    toolsUsed := tally profile.toolsUsed m.toolNames
    modelsUsed := tally profile.modelsUsed [m.modelUsed]
    totalMessages := profile.totalMessages + 1 }

/-- The row after messages processed one after another. -/
def profileAfter (b : BehaviorEnv) (history : List Processed) : Option Profile :=
  history.foldl (fun row m => some (updateBehaviorProfile b row m)) none

def topicsAfter (b : BehaviorEnv) (history : List Processed) : List (Text × Nat) :=
  ((profileAfter b history).getD {}).topicKeywords

/-- `sorted(t for t, c in topics.items() if c >= 3)`. -/
def detectRecurringPatterns (p : Profile) : List Text :=
  ((p.topicKeywords.filter fun e => e.2 ≥ 3).map Prod.fst).insertionSort fun a b => a ≤ b

/-- How often a keyword was extracted. -/
def extractions (b : BehaviorEnv) (history : List Processed) (k : Text) : Nat :=
  occurrences (history.flatMap fun m => extractKeywords b m.message) k

/-- The table as a message leaves it, before it is cut. -/
def countedWith (b : BehaviorEnv) (before : List Processed) (m : Processed) : List (Text × Nat) :=
  tally (b.jsonb.order (topicsAfter b before)) (extractKeywords b m.message)

/-- A keyword that is counted with a message and is not in the table afterwards. -/
def EvictedBy (b : BehaviorEnv) (before : List Processed) (m : Processed) (k : Text) : Prop :=
  Evicted b.jsonb maxTopics (topicsAfter b before) (extractKeywords b m.message) k

/-! ## The table of topics -/

theorem profileAfter_concat (b : BehaviorEnv) (history : List Processed) (m : Processed) :
    profileAfter b (history ++ [m]) = some (updateBehaviorProfile b (profileAfter b history) m) := by
  rw [profileAfter, List.foldl_append]
  rfl

/-- The topics are a bounded table of the keywords, message by message. -/
theorem topicsAfter_eq (b : BehaviorEnv) (history : List Processed) :
    topicsAfter b history
      = tallyRun b.jsonb maxTopics (history.map fun m => extractKeywords b m.message) := by
  induction history using List.reverseRecOn with
  | nil => rfl
  | append_singleton history m ih =>
    rw [List.map_append, List.map_singleton, tallyRun_concat, ← ih, topicsAfter, profileAfter_concat]
    rfl

theorem topicsAfter_concat (b : BehaviorEnv) (history : List Processed) (m : Processed) :
    topicsAfter b (history ++ [m])
      = tallyStep b.jsonb maxTopics (topicsAfter b history) (extractKeywords b m.message) := by
  rw [topicsAfter_eq, topicsAfter_eq, List.map_append, List.map_singleton, tallyRun_concat]

theorem nodup_topicsAfter (b : BehaviorEnv) (history : List Processed) :
    ((topicsAfter b history).map Prod.fst).Nodup := by
  rw [topicsAfter_eq]
  exact nodup_keys_run _ _ _

theorem extractions_eq (b : BehaviorEnv) (history : List Processed) (k : Text) :
    extractions b history k
      = occurrences (history.map fun m => extractKeywords b m.message).flatten k := by
  rw [extractions, List.flatMap_def]

theorem mem_detectRecurringPatterns {p : Profile} (h : (p.topicKeywords.map Prod.fst).Nodup)
    {k : Text} : k ∈ detectRecurringPatterns p ↔ 3 ≤ tallied p.topicKeywords k := by
  rw [detectRecurringPatterns, List.mem_insertionSort, List.mem_map]
  constructor
  · rintro ⟨e, he, rfl⟩
    obtain ⟨hmem, hle⟩ := List.mem_filter.mp he
    rw [tallied_of_mem h (show (e.1, e.2) ∈ p.topicKeywords from hmem)]
    exact of_decide_eq_true hle
  · intro hle
    have hk : k ∈ p.topicKeywords.map Prod.fst := by
      by_contra hk
      rw [tallied_of_not_mem hk] at hle
      omega
    exact ⟨_, List.mem_filter.mpr ⟨mem_of_tallied hk, decide_eq_true hle⟩, rfl⟩

theorem mem_recurring (b : BehaviorEnv) (history : List Processed) (k : Text) :
    k ∈ detectRecurringPatterns ((profileAfter b history).getD {})
      ↔ 3 ≤ tallied (topicsAfter b history) k :=
  mem_detectRecurringPatterns (nodup_topicsAfter b history)

/-- A keyword is reported exactly when it was extracted three times since it
was last not in the table. -/
theorem recurring_iff (b : BehaviorEnv) (history : List Processed) (k : Text) :
    ∃ before since, history = before ++ since ∧ k ∉ (topicsAfter b before).map Prod.fst ∧
      (k ∈ detectRecurringPatterns ((profileAfter b history).getD {})
        ↔ 3 ≤ extractions b since k) := by
  obtain ⟨before, since, heq, hbefore, hcount⟩ := exists_since b.jsonb maxTopics
    (history.map fun m => extractKeywords b m.message) k
  obtain ⟨first, second, rfl, rfl, rfl⟩ := List.map_eq_append_iff.mp heq
  refine ⟨first, second, rfl, ?_, ?_⟩
  · rw [topicsAfter_eq]
    exact hbefore
  · rw [mem_recurring, topicsAfter_eq, hcount, extractions_eq]

/-- A keyword that is extracted and not evicted has one more, at least. -/
theorem tallied_of_unevicted {b : BehaviorEnv} {history : List Processed} {m : Processed}
    {k : Text} (hk : k ∈ extractKeywords b m.message) (h : ¬ EvictedBy b history m k) :
    tallied (topicsAfter b history) k < tallied (topicsAfter b (history ++ [m])) k := by
  have hin : k ∈ (topicsAfter b (history ++ [m])).map Prod.fst := by
    by_contra hout
    rw [topicsAfter_concat] at hout
    exact (not_mem_of_unevicted h hout).2 hk
  rw [topicsAfter_concat] at hin ⊢
  rw [tallied_step (nodup_topicsAfter b history) hin]
  exact Nat.lt_add_of_pos_right (occurrences_pos hk)

/-- No count is higher than the extractions. A keyword that the last three
messages have is reported unless one of them evicts it, and it is evicted only
when fifty others then have a count at least as high. -/
theorem recurring_of_kept (b : BehaviorEnv) (history : List Processed) (k : Text) :
    (∀ c, (k, c) ∈ topicsAfter b history → c ≤ extractions b history k) ∧
    (∀ before x y z, history = before ++ [x, y, z] →
      (∀ m ∈ [x, y, z], k ∈ extractKeywords b m.message) →
      k ∈ detectRecurringPatterns ((profileAfter b history).getD {}) ∨
        EvictedBy b before x k ∨ EvictedBy b (before ++ [x]) y k ∨
          EvictedBy b (before ++ [x, y]) z k) ∧
    (∀ before m, EvictedBy b before m k →
      maxTopics ≤ (countedWith b before m).countP
        fun e => e.1 ≠ k ∧ tallied (countedWith b before m) k ≤ e.2) := by
  refine ⟨fun c hc => ?_, ?_, fun before m hev => ?_⟩
  · rw [← tallied_of_mem (nodup_topicsAfter b history) hc, topicsAfter_eq, extractions_eq]
    exact tallied_run_le _ _ _ _
  · rintro before x y z rfl hall
    by_contra hnot
    obtain ⟨hout, hx, hy, hz⟩ : _ ∧ ¬ EvictedBy b before x k ∧ ¬ EvictedBy b (before ++ [x]) y k ∧
        ¬ EvictedBy b (before ++ [x, y]) z k := by
      rwa [not_or, not_or, not_or] at hnot
    have hfirst := tallied_of_unevicted (hall x (by simp)) hx
    have hsecond := tallied_of_unevicted (hall y (by simp)) hy
    have hthird := tallied_of_unevicted (hall z (by simp)) hz
    rw [List.append_assoc, List.singleton_append] at hsecond
    rw [List.append_assoc] at hthird
    refine hout ((mem_recurring b _ k).mpr ?_)
    show 3 ≤ tallied (topicsAfter b (before ++ ([x, y] ++ [z]))) k
    omega
  · exact others_of_evicted (nodup_topicsAfter b before) hev

/-! ## A table full of old keywords -/

/-- A new keyword that comes once and alone, however often, is never in a full
table, and so never reported. -/
theorem newcomer_not_recurring (b : BehaviorEnv) {before : List Processed} {k : Text}
    (hfull : (topicsAfter b before).length = maxTopics)
    (hnew : k ∉ (topicsAfter b before).map Prod.fst) {news : List Processed}
    (halone : ∀ m ∈ news, extractKeywords b m.message = [k]) :
    k ∉ detectRecurringPatterns ((profileAfter b (before ++ news)).getD {}) := by
  have hnews : (news.map fun m => extractKeywords b m.message) = List.replicate news.length [k] := by
    rw [List.eq_replicate_iff, List.length_map]
    refine ⟨rfl, fun ks hks => ?_⟩
    obtain ⟨m, hm, rfl⟩ := List.mem_map.mp hks
    exact halone m hm
  have hpos : ∀ e ∈ topicsAfter b before, 0 < e.2 := by
    rw [topicsAfter_eq]
    exact pos_of_run _ _ _
  have hperm : (topicsAfter b (before ++ news)).Perm (topicsAfter b before) := by
    have hkeep := full_keeps_out (o := b.jsonb) (nodup_topicsAfter b before) hfull hpos hnew news.length
    rw [topicsAfter_eq b (before ++ news), List.map_append, tallyRun, List.foldl_append, hnews]
    rw [topicsAfter_eq] at hkeep ⊢
    exact hkeep
  rw [mem_recurring, tallied_of_not_mem]
  · omega
  · exact fun hmem => hnew ((hperm.map Prod.fst).mem_iff.mp hmem)

/-- A text that is lower case, and a store that keeps the order. -/
def plainBehavior : BehaviorEnv := ⟨id, ⟨id, fun _ => List.Perm.refl _⟩⟩

/-- Ten words of five letters. -/
def tenWords (c : Char) : Processed where
  queryType := "chat".toList
  message := joinWords (['a', 'b', 'c', 'd', 'e', 'f', 'g', 'h', 'i', 'j'].map fun d => [c, d, d, d, d])
  modelUsed := "model".toList

def fiftyWords : List Processed := ['a', 'b', 'c', 'd', 'e'].map tenWords

def aboutZebras : Processed where
  queryType := "chat".toList
  message := "zebra".toList
  modelUsed := "model".toList

theorem fiftyWords_full : (topicsAfter plainBehavior fiftyWords).length = maxTopics ∧
    "zebra".toList ∉ (topicsAfter plainBehavior fiftyWords).map Prod.fst := by
  decide +kernel

theorem extractKeywords_zebras :
    extractKeywords plainBehavior aboutZebras.message = ["zebra".toList] := by
  decide

/-- Three messages in a row need not be enough. -/
theorem zebras_not_recurring :
    ¬ ∀ (b : BehaviorEnv) (history : List Processed) (k : Text),
      (∀ c, (k, c) ∈ topicsAfter b history → c ≤ extractions b history k) ∧
      (∀ before x y z, history = before ++ [x, y, z] →
        (∀ m ∈ [x, y, z], k ∈ extractKeywords b m.message) →
        k ∈ detectRecurringPatterns ((profileAfter b history).getD {})) := by
  intro h
  obtain ⟨hfull, hnew⟩ := fiftyWords_full
  have hzebras : ∀ m ∈ [aboutZebras, aboutZebras, aboutZebras],
      extractKeywords plainBehavior m.message = ["zebra".toList] := by
    intro m hm
    rw [show m = aboutZebras by simpa using hm]
    exact extractKeywords_zebras
  refine newcomer_not_recurring plainBehavior hfull hnew hzebras ?_
  refine (h plainBehavior _ "zebra".toList).2 fiftyWords _ _ _ rfl fun m hm => ?_
  rw [hzebras m hm]
  exact List.mem_singleton.mpr rfl

end Eidetic.Behavior
