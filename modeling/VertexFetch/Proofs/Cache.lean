import Mathlib.Data.List.Nodup
import VertexFetch.Cache
import VertexFetch.Proofs.Refusal

namespace VertexFetch

namespace KeySupply

variable {κ : Type}

/-- The keys that were taken on the way to a state, latest first. -/
inductive Gave (supply : KeySupply κ) : List κ → supply.State → Prop
  | start : supply.Gave [] supply.start
  | take {given : List κ} {state : supply.State} : supply.Gave given state →
      supply.Gave ((supply.take state).1 :: given) (supply.take state).2
  | giveBack {given : List κ} {state : supply.State} (key : κ) :
      supply.Gave given state →
      supply.Gave given (supply.giveBack state key)

def Fresh (supply : KeySupply κ) : Prop :=
  ∀ given state, supply.Gave given state → (supply.take state).1 ∉ given

theorem fresh_counting : counting.Fresh := by
  have below {given : List Nat} {next : counting.State}
      (gave : counting.Gave given next) : ∀ key ∈ given, key < next := by
    induction gave with
    | start => exact nofun
    | take _ induction =>
        intro key member
        rcases List.mem_cons.mp member with rfl | member
        · exact Nat.lt_succ_self _
        · exact Nat.lt_succ_of_lt (induction key member)
    | giveBack _ _ induction => exact induction
  intro given next gave member
  exact Nat.lt_irrefl _ (below gave _ member)

end KeySupply

namespace Cache

variable {κ : Type}

inductive Request (κ : Type) where
  | insert (l : Layout)
  | find (key : κ)
  | erase (key : κ)

inductive Entry (κ : Type) where
  | inserted (l : Layout) (result : Except Unsupported κ)
  | found (key : κ) (kernel? : Option Kernel)
  | erased (key : κ) (had : Bool)

namespace Entry

def key? (l : Layout) : Entry κ → Option κ
  | inserted l' (.ok key) => if l' = l then some key else none
  | _ => none

/-- The latest key that was given for the layout, and what came since. -/
def latest? (l : Layout) : List (Entry κ) → Option (κ × List (Entry κ))
  | [] => none
  | entry :: past =>
      match entry.key? l with
      | some key => some (key, [])
      | none =>
          (latest? l past).map fun given => (given.1, entry :: given.2)

/-- The key is the latest that was given for the layout, and nobody asked to
erase it since. -/
def Kept (past : List (Entry κ)) (l : Layout) (key : κ) : Prop :=
  ∃ since, latest? l past = some (key, since) ∧ ∀ had, erased key had ∉ since

/-- The key was given, and then somebody asked to erase it. -/
def Removed (past : List (Entry κ)) (key : κ) : Prop :=
  ∃ later had earlier l, past = later ++ erased key had :: earlier ∧
    inserted l (.ok key) ∈ earlier

variable {past : List (Entry κ)} {entry : Entry κ} {l : Layout} {key : κ}

theorem key?_eq_some :
    entry.key? l = some key ↔ entry = inserted l (.ok key) := by
  cases entry with
  | inserted l' result =>
      cases result with
      | error e => simp [key?]
      | ok key' =>
          rw [key?]
          split
          next same => simp [same]
          next other => simp [other]
  | found key' kernel? => simp [key?]
  | erased key' had => simp [key?]

theorem not_kept_nil : ¬ Kept [] l key := by
  rintro ⟨since, given, _⟩
  cases given

theorem kept_cons : Kept (entry :: past) l key ↔
    entry = inserted l (.ok key) ∨
      entry.key? l = none ∧ (∀ had, entry ≠ erased key had) ∧
        Kept past l key := by
  unfold Kept
  rw [latest?]
  cases given : entry.key? l with
  | some key' =>
      rw [← key?_eq_some, given]
      simp [and_assoc]
  | none =>
      have other : entry ≠ inserted l (.ok key) := by
        intro same
        cases given.symm.trans (key?_eq_some.mpr same)
      constructor
      · rintro ⟨since, found, unerased⟩
        obtain ⟨earlier, before, same⟩ := Option.map_eq_some_iff.mp found
        obtain ⟨rfl, rfl⟩ := Prod.mk.inj same
        simp only [List.mem_cons, not_or] at unerased
        exact .inr ⟨rfl, fun had => Ne.symm (unerased had).1, earlier.2, before,
          fun had => (unerased had).2⟩
      · rintro (same | ⟨_, differs, since, before, unerased⟩)
        · exact absurd same other
        · refine ⟨entry :: since, by rw [before]; rfl, ?_⟩
          intro had member
          rcases List.mem_cons.mp member with same | member
          · exact differs had same.symm
          · exact unerased had member

theorem not_removed_nil : ¬ Removed [] key := by
  rintro ⟨later, had, earlier, l, split, _⟩
  cases List.append_eq_nil_iff.mp split.symm |>.2

theorem removed_cons : Removed (entry :: past) key ↔
    ((∃ had, entry = erased key had) ∧ ∃ l, inserted l (.ok key) ∈ past) ∨
      Removed past key := by
  constructor
  · rintro ⟨later, had, earlier, l, split, given⟩
    cases later with
    | nil =>
        obtain ⟨rfl, rfl⟩ := List.cons.inj split
        exact .inl ⟨⟨had, rfl⟩, l, given⟩
    | cons first later =>
        obtain ⟨_, rest⟩ := List.cons.inj split
        exact .inr ⟨later, had, earlier, l, rest, given⟩
  · rintro (⟨⟨had, rfl⟩, l, given⟩ | ⟨later, had, earlier, l, rfl, given⟩)
    · exact ⟨[], had, past, l, rfl, given⟩
    · exact ⟨entry :: later, had, earlier, l, rfl, given⟩

theorem mem_of_latest? {since : List (Entry κ)}
    (given : latest? l past = some (key, since)) :
    inserted l (.ok key) ∈ past := by
  induction past generalizing since with
  | nil => cases given
  | cons entry past induction =>
      rw [latest?] at given
      split at given
      next key' own =>
        obtain ⟨rfl, rfl⟩ := Prod.mk.inj (Option.some.inj given)
        rw [key?_eq_some.mp own]
        exact List.mem_cons_self
      next =>
        obtain ⟨earlier, before, same⟩ := Option.map_eq_some_iff.mp given
        obtain ⟨rfl, rfl⟩ := Prod.mk.inj same
        exact List.mem_cons_of_mem _ (induction before)

theorem Kept.mem (kept : Kept past l key) : inserted l (.ok key) ∈ past := by
  obtain ⟨since, given, _⟩ := kept
  exact mem_of_latest? given

theorem Removed.mem (removed : Removed past key) :
    ∃ l, inserted l (.ok key) ∈ past := by
  obtain ⟨later, had, earlier, l, rfl, given⟩ := removed
  exact ⟨l, List.mem_append_right _ (List.mem_cons_of_mem _ given)⟩

end Entry

open Entry

variable [DecidableEq κ] [Hashable κ] {supply : KeySupply κ}

def serve (c : Cache supply) : Request κ → Entry κ × Cache supply
  | .insert l => (.inserted l (c.insert l).1, (c.insert l).2)
  | .find key => (.found key (c.get? key), c)
  | .erase key => (.erased key (c.erase key).1, (c.erase key).2)

def resume (state : List (Entry κ) × Cache supply) (r : Request κ) :
    List (Entry κ) × Cache supply :=
  ((state.2.serve r).1 :: state.1, (state.2.serve r).2)

/-- The past, latest first, and the cache that it leaves of an empty one. -/
def run (supply : KeySupply κ) (requests : List (Request κ)) :
    List (Entry κ) × Cache supply :=
  requests.foldl resume ([], {})

variable {c : Cache supply} {past : List (Entry κ)} {l : Layout} {key : κ}

def withKernel (c : Cache supply) (l : Layout) (k : Kernel) : Cache supply where
  kernels := c.kernels.insert (supply.take c.state).1 k
  keys := c.keys.insert l (supply.take c.state).1
  state := (supply.take c.state).2

def without (c : Cache supply) (key : κ) : Cache supply where
  kernels := c.kernels.erase key
  keys := c.keys.filter fun _ k => k != key
  state := supply.giveBack c.state key

theorem getElem?_keys_withKernel (l' : Layout) (k : Kernel) :
    (c.withKernel l k).keys[l']? =
      if l = l' then some (supply.take c.state).1 else c.keys[l']? := by
  rw [withKernel, Std.HashMap.getElem?_insert]
  simp only [beq_iff_eq]

theorem get?_withKernel (key : κ) (k : Kernel) :
    (c.withKernel l k).get? key =
      if (supply.take c.state).1 = key then some k else c.get? key := by
  rw [get?, withKernel, Std.HashMap.getElem?_insert]
  simp only [beq_iff_eq]
  rfl

theorem getElem?_keys_without {key' : κ} :
    (c.without key).keys[l]? = some key' ↔
      c.keys[l]? = some key' ∧ key' ≠ key := by
  rw [without, Std.HashMap.getElem?_filter', Option.filter_eq_some_iff,
    bne_iff_ne]

theorem insert_of_present (present : c.keys[l]? = some key) :
    c.insert l = (.ok key, c) := by
  rw [Cache.insert, present]

theorem insert_of_error (absent : c.keys[l]? = none) {e : Unsupported}
    (failed : l.compile = .error e) : c.insert l = (.error e, c) := by
  rw [Cache.insert, absent, failed]

theorem insert_of_ok (absent : c.keys[l]? = none) {k : Kernel}
    (compiled : l.compile = .ok k) :
    c.insert l = (.ok (supply.take c.state).1, c.withKernel l k) := by
  rw [Cache.insert, absent, compiled]
  rfl

theorem insert_refused {e : Unsupported} (failed : (c.insert l).1 = .error e) :
    (c.insert l).2 = c := by
  cases present : c.keys[l]? with
  | some key => rw [insert_of_present present]
  | none =>
      cases compiled : l.compile with
      | error e => rw [insert_of_error present compiled]
      | ok k =>
          rw [insert_of_ok present compiled] at failed
          cases failed

theorem erase_of_live (live : (c.get? key).isSome) :
    c.erase key = (true, c.without key) := by
  rw [get?, ← Std.HashMap.contains_eq_isSome_getElem?] at live
  rw [Cache.erase, if_pos live]
  rfl

theorem erase_of_dead (dead : c.get? key = none) :
    c.erase key = (false, c) := by
  rw [get?] at dead
  rw [Cache.erase, Std.HashMap.contains_eq_isSome_getElem?, dead]
  rfl

theorem get?_without (other : κ) :
    (c.without key).get? other =
      if other = key then none else c.get? other := by
  rw [get?, without, Std.HashMap.getElem?_erase]
  by_cases same : other = key
  · simp [same]
  · have differs : ¬ (key == other) = true := fun equal =>
      same (eq_of_beq equal).symm
    rw [if_neg differs, if_neg same]
    rfl

theorem mem_keys_iff {α β : Type} [BEq α] [LawfulBEq α] [Hashable α]
    {m : Std.HashMap α β} {a : α} : a ∈ m.keys ↔ ∃ b, m[a]? = some b := by
  rw [Std.HashMap.mem_keys, Std.HashMap.mem_iff_isSome_getElem?,
    Option.isSome_iff_exists]

theorem serve_cases (c : Cache supply) (r : Request κ) :
    ((∀ l, (c.serve r).1.key? l = none) ∧
      (∀ key had, (c.serve r).1 = .erased key had → c.get? key = none) ∧
      (c.serve r).2 = c) ∨
    (∃ l key, c.keys[l]? = some key ∧
      c.serve r = (.inserted l (.ok key), c)) ∨
    (∃ l k, c.keys[l]? = none ∧ l.compile = .ok k ∧
      c.serve r =
      (.inserted l (.ok (supply.take c.state).1), c.withKernel l k)) ∨
    ∃ key, (c.get? key).isSome ∧
      c.serve r = (.erased key true, c.without key) := by
  cases r with
  | find key => exact .inl ⟨fun _ => rfl, nofun, rfl⟩
  | insert l =>
      rw [serve]
      cases present : c.keys[l]? with
      | some key =>
          rw [insert_of_present present]
          exact .inr (.inl ⟨l, key, present, rfl⟩)
      | none =>
          cases compiled : l.compile with
          | error e =>
              rw [insert_of_error present compiled]
              exact .inl ⟨fun _ => rfl, nofun, rfl⟩
          | ok k =>
              rw [insert_of_ok present compiled]
              exact .inr (.inr (.inl ⟨l, k, present, compiled, rfl⟩))
  | erase key =>
      rw [serve]
      cases found : c.get? key with
      | some k =>
          have live : (c.get? key).isSome := by rw [found]; rfl
          rw [erase_of_live live]
          exact .inr (.inr (.inr ⟨key, live, rfl⟩))
      | none =>
          rw [erase_of_dead found]
          refine .inl ⟨fun _ => rfl, ?_, rfl⟩
          intro key' had same
          cases same
          exact found

/-- The two tables of a cache fit together and to the past. -/
structure Sound (past : List (Entry κ)) (c : Cache supply) : Prop where
  keys {l : Layout} {key : κ} : c.keys[l]? = some key ↔ Kept past l key
  kernel {l : Layout} {key : κ} : c.keys[l]? = some key →
    ∃ k, l.compile = .ok k ∧ c.kernels[key]? = some k
  layout {key : κ} {k : Kernel} : c.kernels[key]? = some k →
    ∃ l : Layout, c.keys[l]? = some key
  injective {l l' : Layout} {key : κ} :
    c.keys[l]? = some key → c.keys[l']? = some key → l = l'
  gave : ∃ given, supply.Gave given c.state ∧
    ∀ l key, .inserted l (.ok key) ∈ past → key ∈ given
  compiles {l : Layout} {key : κ} : .inserted l (.ok key) ∈ past →
    ∃ k, l.compile = .ok k
  removed {key : κ} : Removed past key → c.kernels[key]? = none

namespace Sound

theorem empty : Sound [] ({} : Cache supply) where
  keys := by
    intro l key
    rw [Std.HashMap.getElem?_empty]
    exact ⟨nofun, fun kept => absurd kept not_kept_nil⟩
  kernel := by
    intro l key present
    rw [Std.HashMap.getElem?_empty] at present
    cases present
  layout := by
    intro key k present
    rw [Std.HashMap.getElem?_empty] at present
    cases present
  injective := by
    intro l l' key present
    rw [Std.HashMap.getElem?_empty] at present
    cases present
  gave := ⟨[], .start, nofun⟩
  compiles := nofun
  removed := fun removed => absurd removed not_removed_nil

section

variable (sound : Sound past c)

include sound

theorem mem_of_present (present : c.keys[l]? = some key) :
    .inserted l (.ok key) ∈ past :=
  (sound.keys.mp present).mem

theorem idle {entry : Entry κ} (quiet : ∀ l, entry.key? l = none)
    (dead : ∀ key had, entry = .erased key had → c.get? key = none) :
    Sound (entry :: past) c where
  keys := by
    intro l key
    rw [sound.keys, kept_cons]
    constructor
    · intro kept
      refine .inr ⟨quiet l, ?_, kept⟩
      intro had same
      obtain ⟨k, _, found⟩ := sound.kernel (sound.keys.mpr kept)
      cases (dead key had same).symm.trans found
    · rintro (same | ⟨_, _, kept⟩)
      · cases (quiet l).symm.trans (key?_eq_some.mpr same)
      · exact kept
  kernel := sound.kernel
  layout := sound.layout
  injective := sound.injective
  gave := by
    obtain ⟨given, gave, listed⟩ := sound.gave
    refine ⟨given, gave, ?_⟩
    intro l key member
    rcases List.mem_cons.mp member with same | member
    · cases (quiet l).symm.trans (key?_eq_some.mpr same.symm)
    · exact listed l key member
  compiles := by
    intro l key member
    rcases List.mem_cons.mp member with same | member
    · cases (quiet l).symm.trans (key?_eq_some.mpr same.symm)
    · exact sound.compiles member
  removed := by
    intro key removed
    rcases removed_cons.mp removed with ⟨⟨had, same⟩, _⟩ | removed
    · exact dead key had same
    · exact sound.removed removed

theorem again (present : c.keys[l]? = some key) :
    Sound (.inserted l (.ok key) :: past) c where
  keys := by
    intro l' key'
    rw [kept_cons, ← sound.keys, ← key?_eq_some, key?]
    split
    next same =>
      subst same
      simp [present]
    next => simp
  kernel := sound.kernel
  layout := sound.layout
  injective := sound.injective
  gave := by
    obtain ⟨given, gave, listed⟩ := sound.gave
    refine ⟨given, gave, ?_⟩
    intro l' key' member
    rcases List.mem_cons.mp member with same | member
    · cases same
      exact listed l key (sound.mem_of_present present)
    · exact listed l' key' member
  compiles := by
    intro l' key' member
    rcases List.mem_cons.mp member with same | member
    · cases same
      exact sound.compiles (sound.mem_of_present present)
    · exact sound.compiles member
  removed := by
    intro key' removed
    rcases removed_cons.mp removed with ⟨⟨had, same⟩, _⟩ | removed
    · cases same
    · exact sound.removed removed

theorem erase (live : (c.get? key).isSome) :
    Sound (.erased key true :: past) (c.without key) where
  keys := by
    intro l key'
    rw [getElem?_keys_without, sound.keys, kept_cons]
    constructor
    · rintro ⟨kept, other⟩
      refine .inr ⟨rfl, ?_, kept⟩
      intro had same
      cases same
      exact other rfl
    · rintro (same | ⟨_, other, kept⟩)
      · cases same
      · refine ⟨kept, ?_⟩
        rintro rfl
        exact other true rfl
  kernel := by
    intro l key' present
    obtain ⟨present, other⟩ := getElem?_keys_without.mp present
    obtain ⟨k, made, found⟩ := sound.kernel present
    exact ⟨k, made, (get?_without key').trans ((if_neg other).trans found)⟩
  layout := by
    intro key' k found
    have found := (get?_without key').symm.trans found
    split at found
    next => cases found
    next other =>
      obtain ⟨l, present⟩ := sound.layout found
      exact ⟨l, getElem?_keys_without.mpr ⟨present, other⟩⟩
  injective := by
    intro l l' key' first second
    exact sound.injective (getElem?_keys_without.mp first).1
      (getElem?_keys_without.mp second).1
  gave := by
    obtain ⟨given, gave, listed⟩ := sound.gave
    refine ⟨given, gave.giveBack key, ?_⟩
    intro l key' member
    exact listed l key' ((List.mem_cons.mp member).resolve_left nofun)
  compiles := by
    intro l key' member
    exact sound.compiles ((List.mem_cons.mp member).resolve_left nofun)
  removed := by
    intro key' removed
    refine (get?_without key').trans ?_
    rcases removed_cons.mp removed with ⟨⟨had, same⟩, _⟩ | removed
    · cases same
      exact if_pos rfl
    · split
      next => rfl
      next => exact sound.removed removed

theorem size_eq : c.size = c.keys.keys.length := by
  have distinct : (c.keys.keys.map fun l => c.keys[l]?).Nodup := by
    refine Std.HashMap.nodup_keys.map_on ?_
    intro l member l' member' same
    obtain ⟨key, present⟩ := mem_keys_iff.mp member
    exact sound.injective present (same.symm.trans present)
  have matched : (c.keys.keys.map fun l => c.keys[l]?).Perm
      (c.kernels.keys.map some) := by
    rw [List.perm_ext_iff_of_nodup distinct
      (Std.HashMap.nodup_keys.map_on fun _ _ _ _ => Option.some.inj)]
    intro found
    rw [List.mem_map, List.mem_map]
    constructor
    · rintro ⟨l, member, rfl⟩
      obtain ⟨key, present⟩ := mem_keys_iff.mp member
      obtain ⟨k, _, found⟩ := sound.kernel present
      exact ⟨key, mem_keys_iff.mpr ⟨k, found⟩, present.symm⟩
    · rintro ⟨key, member, rfl⟩
      obtain ⟨k, found⟩ := mem_keys_iff.mp member
      obtain ⟨l, present⟩ := sound.layout found
      exact ⟨l, mem_keys_iff.mpr ⟨key, present⟩, present⟩
  have same := matched.length_eq
  rw [List.length_map, List.length_map] at same
  exact Std.HashMap.length_keys.symm.trans same.symm

theorem absent_of_not_kept (unkept : ∀ key, ¬ Kept past l key) :
    c.keys[l]? = none := by
  cases present : c.keys[l]? with
  | none => rfl
  | some key => exact absurd (sound.keys.mp present) (unkept key)

theorem insert_of_latest {since : List (Entry κ)}
    (latest : latest? l past = some (key, since)) :
    ∃ key', (c.insert l).1 = .ok key' := by
  obtain ⟨k, compiled⟩ := sound.compiles (mem_of_latest? latest)
  cases present : c.keys[l]? with
  | some key' => exact ⟨key', by rw [insert_of_present present]⟩
  | none => exact ⟨_, by rw [insert_of_ok present compiled]⟩

variable (fresh : supply.Fresh)

include fresh

theorem take_not_mem (l : Layout) :
    .inserted l (.ok (supply.take c.state).1) ∉ past := by
  obtain ⟨given, gave, listed⟩ := sound.gave
  exact fun member => fresh given c.state gave (listed l _ member)

theorem ne_take (present : c.keys[l]? = some key) :
    key ≠ (supply.take c.state).1 := by
  rintro rfl
  exact sound.take_not_mem fresh l (sound.mem_of_present present)

theorem anew {k : Kernel} (absent : c.keys[l]? = none)
    (compiled : l.compile = .ok k) :
    Sound (.inserted l (.ok (supply.take c.state).1) :: past)
      (c.withKernel l k) where
  keys := by
    intro l' key
    rw [getElem?_keys_withKernel, kept_cons, ← sound.keys, ← key?_eq_some, key?]
    by_cases same : l = l'
    · simp [same]
    · simp [same]
  kernel := by
    intro l' key present
    rw [getElem?_keys_withKernel] at present
    split at present
    next same =>
      subst same
      obtain rfl := Option.some.inj present
      exact ⟨k, compiled, (get?_withKernel _ k).trans (if_pos rfl)⟩
    next =>
      have other := (sound.ne_take fresh present).symm
      obtain ⟨k', made, found⟩ := sound.kernel present
      exact ⟨k', made,
        (get?_withKernel key k).trans ((if_neg other).trans found)⟩
  layout := by
    intro key k' found
    have found := (get?_withKernel key k).symm.trans found
    split at found
    next same =>
      exact ⟨l, by rw [getElem?_keys_withKernel, if_pos rfl, same]⟩
    next =>
      obtain ⟨l', present⟩ := sound.layout found
      refine ⟨l', ?_⟩
      rw [getElem?_keys_withKernel, if_neg, present]
      rintro rfl
      cases absent.symm.trans present
  injective := by
    intro l₁ l₂ key first second
    rw [getElem?_keys_withKernel] at first second
    split at first <;> split at second
    next same₁ same₂ => exact same₁.symm.trans same₂
    next =>
      obtain rfl := Option.some.inj first
      exact absurd rfl (sound.ne_take fresh second)
    next =>
      obtain rfl := Option.some.inj second
      exact absurd rfl (sound.ne_take fresh first)
    next => exact sound.injective first second
  gave := by
    obtain ⟨given, gave, listed⟩ := sound.gave
    refine ⟨_, gave.take, ?_⟩
    intro l' key member
    rcases List.mem_cons.mp member with same | member
    · cases same
      exact List.mem_cons_self
    · exact List.mem_cons_of_mem _ (listed l' key member)
  compiles := by
    intro l' key member
    rcases List.mem_cons.mp member with same | member
    · cases same
      exact ⟨k, compiled⟩
    · exact sound.compiles member
  removed := by
    intro key removed
    rcases removed_cons.mp removed with ⟨⟨had, same⟩, _⟩ | removed
    · cases same
    · obtain ⟨l', member⟩ := removed.mem
      have other : (supply.take c.state).1 ≠ key := by
        rintro rfl
        exact sound.take_not_mem fresh l' member
      exact (get?_withKernel key k).trans
        ((if_neg other).trans (sound.removed removed))

theorem serve (r : Request κ) :
    Sound ((c.serve r).1 :: past) (c.serve r).2 := by
  rcases c.serve_cases r with ⟨quiet, dead, same⟩ | ⟨l, key, present, served⟩ |
    ⟨l, k, absent, compiled, served⟩ | ⟨key, live, served⟩
  · rw [same]
    exact sound.idle quiet dead
  · rw [served]
    exact sound.again present
  · rw [served]
    exact sound.anew fresh absent compiled
  · rw [served]
    exact sound.erase live

/-- The latest key of a layout comes again until it is erased. -/
theorem insert_again_iff {since : List (Entry κ)}
    (latest : latest? l past = some (key, since)) :
    (c.insert l).1 = .ok key ↔ ∀ had, .erased key had ∉ since := by
  constructor
  · intro inserted
    cases present : c.keys[l]? with
    | some key' =>
        rw [insert_of_present present] at inserted
        cases inserted
        obtain ⟨since', latest', unerased⟩ := sound.keys.mp present
        rw [latest] at latest'
        cases latest'
        exact unerased
    | none =>
        obtain ⟨k, compiled⟩ := sound.compiles (mem_of_latest? latest)
        rw [insert_of_ok present compiled] at inserted
        cases inserted
        exact absurd (mem_of_latest? latest) (sound.take_not_mem fresh l)
  · intro unerased
    rw [insert_of_present (sound.keys.mpr ⟨since, latest, unerased⟩)]

end

end Sound

theorem sound_run (fresh : supply.Fresh) (requests : List (Request κ)) :
    Sound (run supply requests).1 (run supply requests).2 := by
  have each : ∀ state : List (Entry κ) × Cache supply,
      Sound state.1 state.2 → Sound (requests.foldl resume state).1
        (requests.foldl resume state).2 := by
    induction requests with
    | nil => exact fun _ => id
    | cons r requests induction =>
        exact fun state sound => induction _ (sound.serve fresh r)
  exact each _ .empty

/-- What a cache answers after a past. -/
structure Answers (past : List (Entry κ)) (c : Cache supply) : Prop where
  injective {l l' : Layout} {key : κ} :
    c.keys[l]? = some key → c.keys[l']? = some key → l = l'
  live {key : κ} :
    (c.get? key).isSome ↔ ∃ l : Layout, c.keys[l]? = some key
  compiled {l : Layout} {key : κ} : c.keys[l]? = some key →
    ∃ k, l.compile = .ok k ∧ c.get? key = some k
  again {l : Layout} {key : κ} {since : List (Entry κ)} :
    latest? l past = some (key, since) →
      (∃ key', (c.insert l).1 = .ok key') ∧
        ((c.insert l).1 = .ok key ↔ ∀ had, .erased key had ∉ since)
  anew {l : Layout} : (∀ key, ¬ Kept past l key) →
    match l.compile with
    | .ok _ => ∃ key, (c.insert l).1 = .ok key ∧
        ∀ l', .inserted l' (.ok key) ∉ past
    | .error e => (c.insert l).1 = .error e
  refused {l : Layout} {e : Unsupported} :
    (c.insert l).1 = .error e → (c.insert l).2 = c
  /-- The size counts the layouts with a key that nobody asked to erase. -/
  size : ∃ layouts : List Layout, layouts.Nodup ∧
    (∀ l, l ∈ layouts ↔ ∃ key, Kept past l key) ∧ c.size = layouts.length
  erases {key : κ} : (c.get? key).isSome →
    (c.erase key).1 = true ∧ ∀ other,
      (c.erase key).2.get? other = if other = key then none else c.get? other
  removed {key : κ} : Removed past key →
    c.get? key = none ∧ c.erase key = (false, c)

theorem Sound.answers (sound : Sound past c) (fresh : supply.Fresh) :
    Answers past c where
  injective := sound.injective
  live := by
    intro key
    constructor
    · intro live
      obtain ⟨k, found⟩ := Option.isSome_iff_exists.mp live
      exact sound.layout found
    · rintro ⟨l, present⟩
      obtain ⟨k, _, found⟩ := sound.kernel present
      exact Option.isSome_iff_exists.mpr ⟨k, found⟩
  compiled := sound.kernel
  again latest :=
    ⟨sound.insert_of_latest latest, sound.insert_again_iff fresh latest⟩
  anew := by
    intro l unkept
    have absent := sound.absent_of_not_kept unkept
    cases compiled : l.compile with
    | error e => rw [insert_of_error absent compiled]
    | ok k =>
        refine ⟨_, by rw [insert_of_ok absent compiled], ?_⟩
        exact sound.take_not_mem fresh
  refused := insert_refused
  size := by
    refine ⟨c.keys.keys, Std.HashMap.nodup_keys, ?_, sound.size_eq⟩
    intro l
    rw [mem_keys_iff]
    exact exists_congr fun key => sound.keys
  erases := by
    intro key live
    rw [erase_of_live live]
    exact ⟨rfl, get?_without⟩
  removed removed :=
    ⟨sound.removed removed, erase_of_dead (sound.removed removed)⟩

/-- With keys that are never taken twice, a cache answers from its past alone
after any requests. -/
theorem run_answers (fresh : supply.Fresh) (requests : List (Request κ)) :
    Answers (run supply requests).1 (run supply requests).2 :=
  (sound_run fresh requests).answers fresh

def bare : Layout where
  width := .u8
  attributes := []
  length_le := by decide
  stream_lt := by decide

def reinserting : List (Request Nat) := [.insert bare, .erase 0, .insert bare]

theorem past_reinserting : (run KeySupply.counting reinserting).1 =
    [.inserted bare (.ok 1), .erased 0 true, .inserted bare (.ok 0)] := by
  obtain ⟨k, compiled⟩ := Layout.exists_kernel (l := bare) rfl
  let first : Cache KeySupply.counting := withKernel {} bare k
  have inserted : ({} : Cache KeySupply.counting).insert bare =
      (.ok 0, first) :=
    insert_of_ok Std.HashMap.getElem?_empty compiled
  have live : (first.get? 0).isSome := by
    rw [get?_withKernel 0 k]
    rfl
  have absent : (first.without 0).keys[bare]? = none := by
    refine Option.eq_none_iff_forall_ne_some.mpr fun key present => ?_
    obtain ⟨present, other⟩ := getElem?_keys_without.mp present
    rw [getElem?_keys_withKernel, if_pos rfl] at present
    exact other (Option.some.inj present).symm
  simp only [run, reinserting, List.foldl, resume, serve, inserted,
    erase_of_live live, insert_of_ok absent compiled]
  rfl

theorem run_answers_reinserting :
    KeySupply.counting.Fresh ∧
      ((run KeySupply.counting reinserting).2.insert bare).1 = .ok 1 ∧
      (run KeySupply.counting reinserting).2.get? 0 = none ∧
      ((run KeySupply.counting reinserting).2.erase 0).1 = false := by
  have answers := run_answers KeySupply.fresh_counting reinserting
  rw [past_reinserting] at answers
  have removed : Removed [.inserted bare (.ok 1), .erased 0 true,
      .inserted bare (.ok 0)] 0 :=
    ⟨[.inserted bare (.ok 1)], true, [.inserted bare (.ok 0)], bare, rfl,
      List.mem_cons_self⟩
  have latest : latest? bare [.inserted bare (.ok 1), .erased 0 true,
      .inserted bare (.ok 0)] = some (1, []) := by
    simp [latest?, key?]
  obtain ⟨gone, erased⟩ := answers.removed removed
  exact ⟨KeySupply.fresh_counting, (answers.again latest).2.mpr nofun, gone,
    by rw [erased]⟩

end Cache
end VertexFetch
