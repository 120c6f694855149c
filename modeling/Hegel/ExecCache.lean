/-
The execution cache and the kind ledger.  The verdict tier keeps a digest of
every conclusion's key, the full tier keeps entries to serve from, bounded in
bytes and evicted oldest first; the ledger remembers the kind of choice drawn
after each prefix of values.
-/
import Hegel.Database
import Mathlib.Data.List.AList

namespace Hegel

/-- Test case status, ordered from least to most significant. -/
inductive Status where
  | earlyStop
  | invalid
  | valid
  | interesting
deriving DecidableEq

def fullTierMaxBytes : Nat := 8 * 2 ^ 20

def kindLedgerCap : Nat := 2 ^ 16

def fnvOffset : BitVec 128 := 0x6c62272e07bb014262b821756295c58d

def fnvPrime : BitVec 128 := 0x0000000001000000000000000000013b

/-- 128-bit FNV-1a. -/
structure Digest where
  value : BitVec 128
deriving DecidableEq

namespace Digest

def new : Digest :=
  ⟨fnvOffset⟩

def update (digest : Digest) (bytes : List UInt8) : Digest :=
  ⟨bytes.foldl
    (fun value b => (value ^^^ BitVec.ofNat 128 b.toNat) * fnvPrime)
    digest.value⟩

def of (bytes : List UInt8) : Digest :=
  new.update bytes

/-- Hashing can be interrupted and resumed. -/
theorem update_append (digest : Digest) (first second : List UInt8) :
    digest.update (first ++ second) = (digest.update first).update second := by
  rw [update, List.foldl_append]
  rfl

end Digest

/-- A conclusion's verdict. -/
structure Verdict where
  status : Status
  origin : Option String
deriving DecidableEq

/-- One full serving entry. -/
structure CachedRun where
  status : Status
  origin : Option String
  nodes : List ChoiceNode
  spans : List Span

namespace CachedRun

def verdict (entry : CachedRun) : Verdict :=
  ⟨entry.status, entry.origin⟩

end CachedRun

/-- Sizes in bytes of the types that entries are charged for. -/
structure Layout where
  choiceNode : Nat
  span : Nat
  cachedRun : Nat

/-- What an entry is charged. -/
def CachedRun.cost (layout : Layout) (entry : CachedRun) (keyLen : Nat) :
    Nat :=
  keyLen + entry.nodes.length * layout.choiceNode +
    entry.spans.length * layout.span + layout.cachedRun

/-- What `ExecCache.record` observed about one conclusion. -/
structure Recorded where
  duplicate : Bool
  verdictMismatch : Bool
deriving DecidableEq

abbrev FullTier := AList fun _ : List UInt8 => CachedRun

structure ExecCache where
  verdicts : AList fun _ : Digest => Verdict
  full : FullTier
  fullOrder : List (List UInt8)
  fullBytes : Nat
  maxFullBytes : Option Nat

namespace ExecCache

def withFullTierBound (maxBytes : Option Nat) : ExecCache :=
  ⟨∅, ∅, [], 0, maxBytes⟩

def bound (cache : ExecCache) : Nat :=
  cache.maxFullBytes.getD fullTierMaxBytes

section Operations

variable (layout : Layout)

/-- Drop the oldest entries while the total exceeds the bound. -/
def evict (bound : Nat) :
    List (List UInt8) → FullTier → Nat → List (List UInt8) × FullTier × Nat
  | [], full, fullBytes => ([], full, fullBytes)
  | oldest :: rest, full, fullBytes =>
      if fullBytes > bound then
        match full.lookup oldest with
        | some evicted =>
            evict bound rest (full.erase oldest)
              (fullBytes - evicted.cost layout oldest.length)
        | none => evict bound rest full fullBytes
      else (oldest :: rest, full, fullBytes)

/-- Keep a serving entry under a key that has none. -/
def keep (cache : ExecCache) (key : List UInt8) (entry : CachedRun) :
    ExecCache :=
  let (fullOrder, full, fullBytes) :=
    evict layout cache.bound (cache.fullOrder ++ [key])
      (cache.full.insert key entry)
      (cache.fullBytes + entry.cost layout key.length)
  { cache with
    fullOrder := fullOrder
    full := full
    fullBytes := fullBytes }

/-- Compare a verdict with the one its digest had, or enter it. -/
def recordVerdict (cache : ExecCache) (digest : Digest) (verdict : Verdict) :
    ExecCache × Recorded :=
  match cache.verdicts.lookup digest with
  | some v => (cache, ⟨true, decide (v ≠ verdict)⟩)
  | none =>
      ({ cache with verdicts := cache.verdicts.insert digest verdict },
        ⟨false, false⟩)

/-- Record one executed conclusion under its key. -/
def record (cache : ExecCache) (key : List UInt8) (status : Status)
    (origin : Option String) (nodes : List ChoiceNode) (spans : List Span)
    (keepFull : Bool) : ExecCache × Recorded :=
  let (cache, recorded) :=
    cache.recordVerdict (Digest.of key) ⟨status, origin⟩
  if keepFull = true ∧ recorded.verdictMismatch = false ∧ key ∉ cache.full then
    (cache.keep layout key ⟨status, origin, nodes, spans⟩, recorded)
  else (cache, recorded)

/-- The entry for a key, if one survives. -/
def serve (cache : ExecCache) (key : List UInt8) : Option CachedRun :=
  cache.full.lookup key

/-- Drop both tiers. -/
def clear (cache : ExecCache) : ExecCache :=
  { cache with verdicts := ∅, full := ∅, fullOrder := [], fullBytes := 0 }

end Operations

end ExecCache

/-- The kind of a choice, its constraint included. -/
inductive ChoiceKind where
  | integer (constraint : IntegerChoice)
  | boolean (constraint : BooleanChoice)
  | float (constraint : FloatChoice)
  | bytes (constraint : BytesChoice)
  | string (constraint : StringChoice)
  | clone
deriving DecidableEq

def ChoiceData.kind : ChoiceData → ChoiceKind
  | .integer ic _ => .integer ic
  | .boolean bc _ => .boolean bc
  | .float fc _ => .float fc
  | .bytes bc _ => .bytes bc
  | .string sc _ => .string sc
  | .clone _ => .clone

def ChoiceNode.kind (node : ChoiceNode) : ChoiceKind :=
  node.data.kind

/-- A contradiction: the kind drawn before and the kind drawn now. -/
structure KindMismatch where
  expected : ChoiceKind
  kind : ChoiceKind
deriving DecidableEq

abbrev KindLedger := AList fun _ : Digest => ChoiceKind

namespace KindLedger

/-- Check the kind drawn after one prefix, learning it while there is room. -/
def observeKind (entries : KindLedger) (digest : Digest) (kind : ChoiceKind) :
    Except KindMismatch KindLedger :=
  match entries.lookup digest with
  | some expected =>
      if expected ≠ kind then .error ⟨expected, kind⟩ else .ok entries
  | none =>
      if entries.keys.length < kindLedgerCap then
        .ok (entries.insert digest kind)
      else .ok entries

variable [UBigBytes]

/-- Fold realized nodes into the ledger; what was learnt before a
contradiction stays learnt. -/
def observeFrom (entries : KindLedger) (digest : Digest) :
    List ChoiceNode → KindLedger × Option KindMismatch
  | [] => (entries, none)
  | node :: rest =>
      match observeKind entries digest node.kind with
      | .error mismatch => (entries, some mismatch)
      | .ok entries =>
          observeFrom entries
            (digest.update (serializeOneChoice node.valueRef)) rest

def observe (entries : KindLedger) (nodes : List ChoiceNode) :
    KindLedger × Option KindMismatch :=
  observeFrom entries Digest.new nodes

end KindLedger

namespace ExecCache

section Consistency

variable {layout : Layout}

/-- The cost of everything in the full tier. -/
def totalCost (layout : Layout) (full : FullTier) : Nat :=
  (full.entries.map fun e => e.2.cost layout e.1.length).sum

/-- The recency list and the byte counter describe the full tier. -/
structure Tracked (layout : Layout) (fullOrder : List (List UInt8))
    (full : FullTier) (fullBytes : Nat) : Prop where
  order_nodup : fullOrder.Nodup
  mem_order_iff : ∀ key, key ∈ fullOrder ↔ key ∈ full
  bytes_eq : fullBytes = totalCost layout full

/-- The bookkeeping of a cache. -/
structure Consistent (layout : Layout) (cache : ExecCache) : Prop where
  tracked : Tracked layout cache.fullOrder cache.full cache.fullBytes
  bytes_le : cache.fullBytes ≤ cache.bound

theorem totalCost_insert {full : FullTier} {key : List UInt8}
    (hkey : key ∉ full) (entry : CachedRun) :
    totalCost layout (full.insert key entry) =
      totalCost layout full + entry.cost layout key.length := by
  rw [totalCost, AList.entries_insert_of_notMem hkey, List.map_cons,
    List.sum_cons, Nat.add_comm]
  rfl

theorem totalCost_erase {full : FullTier} {key : List UInt8}
    {entry : CachedRun} (hentry : full.lookup key = some entry) :
    totalCost layout (full.erase key) + entry.cost layout key.length =
      totalCost layout full := by
  obtain ⟨entries, hnodup⟩ := full
  simp only [AList.lookup] at hentry
  have herased : ∀ hnodup, (AList.erase key
      (⟨entries, hnodup⟩ : FullTier)).entries = entries.kerase key :=
    fun _ => rfl
  simp only [totalCost, herased]
  clear herased
  induction entries with
  | nil => simp at hentry
  | cons head rest ih =>
      obtain ⟨key', entry'⟩ := head
      by_cases hkey : key' = key
      · subst hkey
        rw [List.dlookup_cons_eq, Option.some.injEq] at hentry
        have herase : List.kerase key' (⟨key', entry'⟩ :: rest) = rest :=
          List.kerase_cons_eq rfl
        rw [herase, List.map_cons, List.sum_cons, hentry, Nat.add_comm]
      · rw [List.dlookup_cons_ne _ _ (Ne.symm hkey)] at hentry
        have hrest := ih (List.nodupKeys_cons.mp hnodup).2 hentry
        have herase : List.kerase key (⟨key', entry'⟩ :: rest) =
            ⟨key', entry'⟩ :: List.kerase key rest :=
          List.kerase_cons_ne (Ne.symm hkey)
        rw [herase, List.map_cons, List.sum_cons, List.map_cons,
          List.sum_cons, Nat.add_assoc, hrest]

/-- Eviction keeps the bookkeeping and ends within the bound. -/
theorem evict_tracked (bound : Nat) {fullOrder : List (List UInt8)}
    {full : FullTier} {fullBytes : Nat}
    (htracked : Tracked layout fullOrder full fullBytes) :
    let result := evict layout bound fullOrder full fullBytes
    Tracked layout result.1 result.2.1 result.2.2 ∧ result.2.2 ≤ bound := by
  induction fullOrder generalizing full fullBytes with
  | nil =>
      refine ⟨htracked, ?_⟩
      have hempty : full.entries = [] := by
        rw [List.eq_nil_iff_forall_not_mem]
        intro entry hentry
        have hmem : entry.1 ∈ full :=
          List.mem_keys_of_mem hentry
        exact absurd ((htracked.mem_order_iff entry.1).mpr hmem)
          List.not_mem_nil
      have hzero : fullBytes = 0 := by
        rw [htracked.bytes_eq, totalCost, hempty]
        rfl
      rw [evict, hzero]
      exact Nat.zero_le bound
  | cons oldest rest ih =>
      rw [evict]
      by_cases hlarge : fullBytes > bound
      · have hmem := (htracked.mem_order_iff oldest).mp List.mem_cons_self
        obtain ⟨evicted, hevicted⟩ :=
          Option.isSome_iff_exists.mp (AList.lookup_isSome.mpr hmem)
        simp only [if_pos hlarge, hevicted]
        have hcost := @totalCost_erase layout _ _ _ hevicted
        have hnodup := List.nodup_cons.mp htracked.order_nodup
        apply ih
        refine ⟨hnodup.2, fun key => ?_, ?_⟩
        · rw [AList.mem_erase, ← htracked.mem_order_iff key, List.mem_cons]
          constructor
          · intro hrest
            exact ⟨fun h => hnodup.1 (h ▸ hrest), .inr hrest⟩
          · rintro ⟨hne, heq | hrest⟩
            · exact absurd heq hne
            · exact hrest
        · rw [htracked.bytes_eq]
          omega
      · simp only [if_neg hlarge]
        exact ⟨htracked, Nat.le_of_not_lt hlarge⟩

/-- Eviction only drops entries. -/
theorem lookup_of_lookup_evict (bound : Nat) (fullOrder : List (List UInt8))
    (full : FullTier) (fullBytes : Nat) {key : List UInt8}
    {entry : CachedRun}
    (hentry : (evict layout bound fullOrder full fullBytes).2.1.lookup key =
      some entry) : full.lookup key = some entry := by
  induction fullOrder generalizing full fullBytes with
  | nil => exact hentry
  | cons oldest rest ih =>
      rw [evict] at hentry
      by_cases hlarge : fullBytes > bound
      · simp only [if_pos hlarge] at hentry
        cases hoccupied : full.lookup oldest with
        | none =>
            rw [hoccupied] at hentry
            exact ih full fullBytes hentry
        | some evicted =>
            rw [hoccupied] at hentry
            have herased := ih _ _ hentry
            by_cases hkey : key = oldest
            · rw [hkey, AList.lookup_erase] at herased
              exact absurd herased (by simp)
            · rwa [AList.lookup_erase_ne hkey] at herased
      · simp only [if_neg hlarge] at hentry
        exact hentry

theorem consistent_withFullTierBound (maxBytes : Option Nat) :
    (withFullTierBound maxBytes).Consistent layout :=
  ⟨⟨List.nodup_nil, fun _ => by simp [withFullTierBound], rfl⟩,
    Nat.zero_le _⟩

theorem consistent_clear (cache : ExecCache) :
    cache.clear.Consistent layout :=
  ⟨⟨List.nodup_nil, fun _ => by simp [clear], rfl⟩, Nat.zero_le _⟩

theorem Consistent.keep {cache : ExecCache}
    (hcache : cache.Consistent layout) {key : List UInt8}
    (hkey : key ∉ cache.full) (entry : CachedRun) :
    (cache.keep layout key entry).Consistent layout := by
  have htracked : Tracked layout (cache.fullOrder ++ [key])
      (cache.full.insert key entry)
      (cache.fullBytes + entry.cost layout key.length) := by
    refine ⟨?_, fun key' => ?_, ?_⟩
    · rw [List.nodup_append_comm, List.singleton_append, List.nodup_cons,
        hcache.tracked.mem_order_iff key]
      exact ⟨hkey, hcache.tracked.order_nodup⟩
    · rw [AList.mem_insert, List.mem_append, List.mem_singleton,
        hcache.tracked.mem_order_iff key', or_comm]
    · rw [totalCost_insert hkey, hcache.tracked.bytes_eq]
  obtain ⟨hresult, hbound⟩ := evict_tracked cache.bound htracked
  exact ⟨hresult, hbound⟩

theorem consistent_recordVerdict {cache : ExecCache}
    (hcache : cache.Consistent layout) (digest : Digest) (verdict : Verdict) :
    (cache.recordVerdict digest verdict).1.Consistent layout := by
  rw [recordVerdict]
  split
  · exact hcache
  · exact ⟨hcache.tracked, hcache.bytes_le⟩

theorem Consistent.record {cache : ExecCache}
    (hcache : cache.Consistent layout) (key : List UInt8) (status : Status)
    (origin : Option String) (nodes : List ChoiceNode) (spans : List Span)
    (keepFull : Bool) :
    (cache.record layout key status origin nodes spans
      keepFull).1.Consistent layout := by
  have hverdict := consistent_recordVerdict hcache (Digest.of key)
    ⟨status, origin⟩
  rw [ExecCache.record]
  split
  case h_1 cache' recorded heq =>
    rw [heq] at hverdict
    split
    case isTrue hkeep => exact hverdict.keep hkeep.2.2 _
    case isFalse => exact hverdict

end Consistency

/-- An operation on the cache. -/
inductive Op where
  | record (key : List UInt8) (status : Status) (origin : Option String)
      (nodes : List ChoiceNode) (spans : List Span) (keepFull : Bool)
  | lookup (key : List UInt8)
  | clear

/-- The cache after one operation; a lookup leaves it as it is. -/
def apply (layout : Layout) (cache : ExecCache) : Op → ExecCache
  | .record key status origin nodes spans keepFull =>
      (cache.record layout key status origin nodes spans keepFull).1
  | .lookup _ => cache
  | .clear => cache.clear

/-- The cache after a history of operations. -/
def run (layout : Layout) (cache : ExecCache) (history : List Op) :
    ExecCache :=
  history.foldl (apply layout) cache

/-- The conclusions passed to `record` since the last clear. -/
def recordedSinceClear (history : List Op) : List (List UInt8 × CachedRun) :=
  history.foldl (fun calls op =>
    match op with
    | .record key status origin nodes spans _ =>
        calls ++ [(key, ⟨status, origin, nodes, spans⟩)]
    | .lookup _ => calls
    | .clear => []) []

section Provenance

variable {layout : Layout}

/-- Every serving entry was recorded under its key, with the verdict that the
key's digest has. -/
def Justified (calls : List (List UInt8 × CachedRun)) (cache : ExecCache) :
    Prop :=
  ∀ key entry, cache.full.lookup key = some entry →
    (key, entry) ∈ calls ∧
      cache.verdicts.lookup (Digest.of key) = some entry.verdict

/-- Entering a verdict leaves the full tier and all known verdicts alone, and
without a mismatch the digest has that verdict afterwards. -/
theorem recordVerdict_spec (cache : ExecCache) (digest : Digest)
    (verdict : Verdict) :
    let result := cache.recordVerdict digest verdict
    result.1.full = cache.full ∧ result.1.bound = cache.bound ∧
      (∀ known v, cache.verdicts.lookup known = some v →
        result.1.verdicts.lookup known = some v) ∧
      (result.2.verdictMismatch = false →
        result.1.verdicts.lookup digest = some verdict) := by
  rw [recordVerdict]
  cases hlookup : cache.verdicts.lookup digest with
  | some v =>
      refine ⟨rfl, rfl, fun _ _ h => h, fun hmatch => ?_⟩
      rw [decide_eq_false_iff_not, not_not] at hmatch
      rw [← hmatch]
      exact hlookup
  | none =>
      refine ⟨rfl, rfl, fun known v h => ?_, fun _ => AList.lookup_insert _⟩
      by_cases hknown : known = digest
      · rw [hknown, hlookup] at h
        exact absurd h (by simp)
      · exact (AList.lookup_insert_ne hknown).trans h

theorem lookup_keep {cache : ExecCache} {key key' : List UInt8}
    {entry entry' : CachedRun}
    (hentry : (cache.keep layout key entry).full.lookup key' = some entry') :
    (key' = key ∧ entry' = entry) ∨ cache.full.lookup key' = some entry' := by
  have hinserted := lookup_of_lookup_evict _ _ _ _ hentry
  by_cases hkey : key' = key
  · rw [hkey, AList.lookup_insert, Option.some.injEq] at hinserted
    exact .inl ⟨hkey, hinserted.symm⟩
  · rw [AList.lookup_insert_ne hkey] at hinserted
    exact .inr hinserted

/-- A served entry was there before or is the recorded conclusion. -/
theorem lookup_record {cache : ExecCache} {key key' : List UInt8}
    {status : Status} {origin : Option String} {nodes : List ChoiceNode}
    {spans : List Span} {keepFull : Bool} {entry : CachedRun}
    (hentry : (cache.record layout key status origin nodes spans
      keepFull).1.full.lookup key' = some entry) :
    cache.full.lookup key' = some entry ∨
      key' = key ∧ entry = ⟨status, origin, nodes, spans⟩ := by
  obtain ⟨hfull, -, -, -⟩ :=
    cache.recordVerdict_spec (Digest.of key) ⟨status, origin⟩
  rw [ExecCache.record] at hentry
  split at hentry
  case h_1 cache' recorded heq =>
    rw [heq] at hfull
    split at hentry
    case isTrue =>
      rcases lookup_keep hentry with hnew | hold
      · exact .inr hnew
      · rw [hfull] at hold
        exact .inl hold
    case isFalse =>
      rw [hfull] at hentry
      exact .inl hentry

theorem Justified.record {calls : List (List UInt8 × CachedRun)}
    {cache : ExecCache} (hcache : Justified calls cache) (key : List UInt8)
    (status : Status) (origin : Option String) (nodes : List ChoiceNode)
    (spans : List Span) (keepFull : Bool) :
    Justified (calls ++ [(key, ⟨status, origin, nodes, spans⟩)])
      (cache.record layout key status origin nodes spans keepFull).1 := by
  obtain ⟨hfull, -, hverdicts, hmatch⟩ :=
    cache.recordVerdict_spec (Digest.of key) ⟨status, origin⟩
  rw [ExecCache.record]
  split
  case h_1 cache' recorded heq =>
    rw [heq] at hfull hverdicts hmatch
    have hold : Justified (calls ++ [(key, ⟨status, origin, nodes, spans⟩)])
        cache' := by
      intro key' entry' hentry'
      rw [hfull] at hentry'
      obtain ⟨hcall, hverdict⟩ := hcache key' entry' hentry'
      exact ⟨List.mem_append_left _ hcall, hverdicts _ _ hverdict⟩
    split
    case isTrue hkeep =>
      intro key' entry' hentry'
      rcases lookup_keep hentry' with ⟨rfl, rfl⟩ | hbefore
      · exact ⟨List.mem_append_right _ List.mem_cons_self,
          hmatch hkeep.2.1⟩
      · exact hold key' entry' hbefore
    case isFalse => exact hold

theorem bound_apply (cache : ExecCache) (op : Op) :
    (cache.apply layout op).bound = cache.bound := by
  cases op with
  | record key status origin nodes spans keepFull =>
      obtain ⟨-, hbound, -, -⟩ :=
        cache.recordVerdict_spec (Digest.of key) ⟨status, origin⟩
      rw [apply, ExecCache.record]
      split
      case h_1 cache' recorded heq =>
        rw [heq] at hbound
        split
        case isTrue => exact hbound
        case isFalse => exact hbound
  | lookup key => rfl
  | clear => rfl

/-- What one operation preserves. -/
theorem consistent_justified_apply {calls : List (List UInt8 × CachedRun)}
    {cache : ExecCache} (hconsistent : cache.Consistent layout)
    (hjustified : Justified calls cache) (op : Op) :
    (cache.apply layout op).Consistent layout ∧
      Justified (match op with
        | .record key status origin nodes spans _ =>
            calls ++ [(key, ⟨status, origin, nodes, spans⟩)]
        | .lookup _ => calls
        | .clear => []) (cache.apply layout op) := by
  cases op with
  | record key status origin nodes spans keepFull =>
      exact ⟨hconsistent.record _ _ _ _ _ _, hjustified.record _ _ _ _ _ _⟩
  | lookup key => exact ⟨hconsistent, hjustified⟩
  | clear =>
      refine ⟨consistent_clear cache, ?_⟩
      intro key entry hentry
      exact absurd hentry (by simp [apply, clear])

/-- What a whole history preserves, read from its end. -/
theorem run_invariant (maxBytes : Option Nat) (history : List Op) :
    let cache := run layout (withFullTierBound maxBytes) history
    cache.Consistent layout ∧ Justified (recordedSinceClear history) cache ∧
      cache.bound = maxBytes.getD fullTierMaxBytes := by
  induction history using List.reverseRecOn with
  | nil =>
      refine ⟨consistent_withFullTierBound maxBytes, ?_, rfl⟩
      intro key entry hentry
      exact absurd hentry (by simp [run, withFullTierBound])
  | append_singleton history op ih =>
      obtain ⟨hconsistent, hjustified, hbound⟩ := ih
      obtain ⟨hconsistent', hjustified'⟩ :=
        consistent_justified_apply hconsistent hjustified op
      rw [run, List.foldl_append, recordedSinceClear, List.foldl_append]
      exact ⟨hconsistent', hjustified', (bound_apply _ op).trans hbound⟩

/-- After any history the recency list holds the keys of the full tier once
each, the counter is the cost of what is resident and within the bound, and
what is served was recorded under the same key since the last clear, with the
verdict of the key's digest. -/
theorem execCache_consistent (maxBytes : Option Nat) (history : List Op) :
    let cache := run layout (withFullTierBound maxBytes) history
    (∀ key, cache.fullOrder.count key =
        if key ∈ cache.full then 1 else 0) ∧
      cache.fullBytes = totalCost layout cache.full ∧
      cache.fullBytes ≤ maxBytes.getD fullTierMaxBytes ∧
      ∀ key entry, cache.serve key = some entry →
        (key, entry) ∈ recordedSinceClear history ∧
          cache.verdicts.lookup (Digest.of key) =
            some ⟨entry.status, entry.origin⟩ := by
  intro cache
  obtain ⟨⟨⟨hnodup, hmem, hbytes⟩, hbound⟩, hjustified, hlimit⟩ :=
    @run_invariant layout maxBytes history
  refine ⟨fun key => ?_, hbytes, hlimit ▸ hbound, hjustified⟩
  by_cases hkey : key ∈ cache.full
  · rw [if_pos hkey]
    exact List.count_eq_one_of_mem hnodup ((hmem key).mpr hkey)
  · rw [if_neg hkey]
    exact List.count_eq_zero_of_not_mem (fun h => hkey ((hmem key).mp h))

end Provenance

end ExecCache

end Hegel
