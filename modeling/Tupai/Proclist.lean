import Tupai.Fmt
import Tupai.Listing
import Tupai.TableMap

namespace Tupai
open Lib
set_option autoImplicit true

/-- A loop that logs, from round `i` on. -/
def logLoop (round : Nat → Option Chars) : (left i : Nat) → Option Chars
  | 0, _ => some []
  | left + 1, i => do return (← round i) ++ (← logLoop round left (i + 1))

namespace Procs

variable (T : IntType) (s : Procs)

/-- A round of the inner loop of `display`. A `long` has type `T`, and null pointers have no
meaning. -/
def displayThread (proc : Proc) (j : Nat) : Option Chars := do
  let thread ← proc.threads.nth j
  logln [.str (chars "    "), .int T (T.conv j) 10 0, .str (chars " -> Thread "),
    .int T (T.conv (s.getLid thread)) 10 0]

def displayProc (i : Nat) : Option Chars := do
  let proc ← s.procTable.nth i
  let line ← logln [.int T (T.conv i) 10 0, .str (chars " -> "), .str proc.name,
    .str (chars " ("), .int T (T.conv proc.id) 10 0, .str (chars ")")]
  return line ++ (← logLoop (s.displayThread T proc) proc.threads.size 0)

def display : Option Chars := logLoop (s.displayProc T) s.procTable.size 0

end Procs

/-- What the listing says about a process. -/
structure ProcEntry where
  id : Nat
  name : Chars
  lids : List Nat

namespace ProcEntry

def threadLine (j lid : Nat) : Chars :=
  chars "    " ++ decimal j ++ chars " -> Thread " ++ decimal lid ++ chars "\n"

def text (i : Nat) (e : ProcEntry) : Chars :=
  decimal i ++ chars " -> " ++ e.name ++ chars " (" ++ decimal e.id ++ chars ")\n" ++
    (e.lids.mapIdx threadLine).flatten

end ProcEntry

/-- Each process is listed once, by its name and with each of its threads once. -/
structure Procs.Lists (s : Procs) (names : Int → Chars) (es : List ProcEntry) : Prop where
  nodup : (es.map ProcEntry.id).Nodup
  procs : ∀ p, s.procTable.get p ≠ none ↔ ∃ e ∈ es, e.id = p
  named : ∀ e ∈ es, e.name = names e.id
  lidsNodup : ∀ e ∈ es, e.lids.Nodup
  threads : ∀ e ∈ es, ∀ l : Int, (∃ lid ∈ e.lids, lid = l) ↔
    ∃ t th, s.threadTable.get t = some th ∧ th.proc = e.id ∧ th.lid = l

/-- The runs, with the names that the processes were created with. -/
inductive NamingStep : Procs × (Int → Chars) → Procs × (Int → Chars) → Prop where
  | create (s : Procs) (names : Int → Chars) (leftover : Proc) (name : Chars) (dir : Int) :
      (Procs.nproc leftover (s.procCounter + 1) name dir).threads.Unused →
      (Procs.nproc leftover (s.procCounter + 1) name dir).fds.Unused →
      NamingStep (s, names) ((s.create leftover name dir).2,
        Function.update names (s.procCounter + 1) ((cstr name).take (PROC_NAME_MAX - 1)))
  | other (s : Procs) (names : Int → Chars) : Procs.ListingStep s s' →
      s'.procCounter = s.procCounter → NamingStep (s, names) (s', names)

section table

variable {h : Hashtable T}

theorem Hashtable.Ok.nth_eq (ok : h.Ok) (i : Nat) : h.nth i = h.keyList[i]?.bind h.get := by
  rw [nth, keyList, List.getElem?_map]
  cases hi : (flaggedList HASHTABLE_CAPACITY h.used)[i]? with
  | none => rfl
  | some j =>
    obtain ⟨hj, hu⟩ := mem_flaggedList.1 (List.mem_of_getElem? hi)
    exact (ok.get_of_slot hj hu rfl).symm

theorem Hashtable.Ok.length_keyList (ok : h.Ok) : h.keyList.length = h.size := by
  rw [keyList, List.length_map, length_flaggedList, ok.size_eq]

theorem Hashtable.mem_keyList (h : Hashtable T) : k ∈ h.keyList ↔ h.get k ≠ none := by
  simp only [keyList, List.mem_map, mem_flaggedList, and_assoc, Ne, get_eq_none_iff,
    slot_eq_none_iff, not_forall, not_not, exists_prop]

end table

theorem logLoop_eq {round : Nat → Option Chars} {texts : List Chars}
    (h : ∀ (j : Nat) (t : Chars), texts[j]? = some t → round (i + j) = some t) :
    logLoop round texts.length i = some texts.flatten := by
  induction texts generalizing i with
  | nil => rfl
  | cons t texts ih =>
    have hfirst : round i = some t := h 0 t rfl
    have hrest := ih (i := i + 1) fun j t' ht => by
      rw [Nat.add_assoc, Nat.add_comm 1]
      exact h (j + 1) t' ht
    rw [List.length_cons, logLoop, hfirst, hrest]
    rfl

namespace Procs

variable {T : IntType} {s s' : Procs} {names : Int → Chars}

/-- Processes keep their ids and names. -/
def KeepsLabels (s s' : Procs) : Prop := ∀ p proc', s'.procTable.get p = some proc' →
  ∃ proc, s.procTable.get p = some proc ∧ proc'.id = proc.id ∧ proc'.name = proc.name

theorem KeepsLabels.of_eq (h : s'.procTable = s.procTable) : KeepsLabels s s' :=
  fun _ proc hp => ⟨proc, h ▸ hp, rfl, rfl⟩

theorem KeepsLabels.modifyProc {f : Proc → Proc} (hid : ∀ proc, (f proc).id = proc.id)
    (hname : ∀ proc, (f proc).name = proc.name) (p : Int)
    (h : s'.procTable = (s.modifyProc p f).procTable) : KeepsLabels s s' := by
  intro q proc' hq
  rw [h, get_modifyProc] at hq
  split_ifs at hq
  · obtain ⟨proc, hp, rfl⟩ := Option.map_eq_some_iff.1 hq
    exact ⟨proc, hp, hid proc, hname proc⟩
  · exact ⟨proc', hq, rfl, rfl⟩

theorem KeepsLabels.deleteThread (s : Procs) (p thread : Int) :
    KeepsLabels s (s.deleteThread p thread).2 := by
  cases hp : s.procTable.get p with
  | none =>
    rw [deleteThread_none hp]
    exact .of_eq rfl
  | some proc =>
    rw [deleteThread_some hp]
    exact .modifyProc (f := fun q => { q with threads := (q.threads.remove (s.getLid thread)).2 })
      (fun _ => rfl) (fun _ => rfl) p rfl

theorem KeepsLabels.spawnThread (s : Procs) (p : Int) (entry nstack : Nat) :
    KeepsLabels s (s.spawnThread p entry nstack).2 := by
  cases hp : s.procTable.get p with
  | none =>
    rw [spawnThread_none hp]
    exact .of_eq rfl
  | some proc =>
    rw [spawnThread_some hp]
    intro q proc' hq
    replace hq := (procTable_enrol hp entry nstack q).symm.trans hq
    split_ifs at hq with he
    · cases hq
      exact ⟨proc, he ▸ hp, rfl, rfl⟩
    · exact ⟨proc', hq, rfl, rfl⟩

theorem KeepsLabels.retireTask (s : Procs) : KeepsLabels s s.retireTask := by
  by_cases hc : s.ctask.thread = ID_INVALID
  · rw [(retireTask_idle hc).1]
    exact .of_eq rfl
  · by_cases hd : s.getState s.ctask.thread = .DEAD
    · rw [(retireTask_dead hc hd).1]
      exact .deleteThread s _ _
    · rw [(retireTask_alive hc hd).1]
      exact .of_eq rfl

theorem ListingStep.labels (h : ListingStep s s') (hc : s'.procCounter = s.procCounter) :
    KeepsLabels s s' := by
  cases h with
  | create _ leftover name dir _ _ =>
    have hcount : s.procCounter + 1 = s.procCounter := hc
    omega
  | spawnThread _ p entry nstack _ _ => exact .spawnThread s p entry nstack
  | kill _ t => exact .of_eq rfl
  | increment _ fuel hi =>
    rw [schedulerIncrement] at hi
    cases hsel : selectTask fuel s.retireTask.schedule with
    | none => rw [hsel] at hi; cases hi
    | some r =>
      rw [hsel] at hi
      cases hi
      exact .retireTask s

/-- Each process has its own id, and the name that it was created with. -/
structure Labelled (s : Procs) (names : Int → Chars) : Prop where
  list : s.ListOk
  label : ∀ p proc, s.procTable.get p = some proc → proc.id = p ∧ cstr proc.name = names p

theorem Labelled.create (h : s.Labelled names) (leftover : Proc) (name : Chars) (dir : Int)
    (hu : (nproc leftover (s.procCounter + 1) name dir).threads.Unused) :
    (s.create leftover name dir).2.Labelled
      (Function.update names (s.procCounter + 1) ((cstr name).take (PROC_NAME_MAX - 1))) := by
  refine ⟨h.list.create leftover name dir hu, fun p proc hp => ?_⟩
  have hget := (get_create h.list.tables leftover name dir p).symm.trans hp
  split_ifs at hget with he
  · cases hget
    obtain rfl : p = s.procCounter + 1 := he.1
    rw [Function.update_self]
    exact ⟨rfl, cstr_strCpyN ..⟩
  · have hne : p ≠ s.procCounter + 1 := by
      rintro rfl
      have hfresh : s.procTable.get (s.procCounter + 1) = none := h.list.tables.freshProc
      rw [show s.tables.procTable = s.procTable from rfl, hfresh] at hget
      cases hget
    rw [Function.update_of_ne hne]
    exact h.label p proc hget

theorem labelled_of_reachable {x : Procs × (Int → Chars)}
    (hr : Reachable (fun x => x.1 = boot) NamingStep x) : x.1.Labelled x.2 := by
  apply hr.invariant (I := fun x => x.1.Labelled x.2)
  · rintro ⟨_, names⟩ rfl
    refine ⟨.boot, fun p proc hp => ?_⟩
    have hnone : boot.procTable.get p = none := Hashtable.zeroed_unused.get p
    cases hnone.symm.trans hp
  · intro x y h hs
    cases hs with
    | create s names leftover name dir hu _ => exact h.create leftover name dir hu
    | other s names hs hc =>
      refine ⟨h.list.step hs, fun p proc' hp => ?_⟩
      obtain ⟨proc, hp, hid, hname⟩ := hs.labels hc p proc' hp
      rw [hid, hname]
      exact h.label p proc hp

/-- Every number of the listing fits in a `long`. -/
structure LongFits (T : IntType) (s : Procs) : Prop where
  long : T = .int32_t ∨ T = .int64_t
  ids : T.Holds s.procCounter
  lids : ∀ p proc, s.procTable.get p = some proc → T.Holds proc.threadCounter

theorem LongFits.index (h : s.LongFits T) (hi : i < HASHTABLE_CAPACITY) : T.Holds i := by
  have hcap : T.Holds (HASHTABLE_CAPACITY : Nat) := by
    rcases h.long with rfl | rfl <;> decide
  exact hcap.of_le (Int.natCast_nonneg i) (Int.ofNat_le.2 (Nat.le_of_lt hi))

theorem fmt_long {m : Nat} (h : T.Holds m) : (FmtArg.int T (T.conv m) 10 0).fmt =
    some (decimal m) := by
  rw [FmtArg.fmt, IntType.conv_eq h, fmtInt_decimal h]

/-- The entry of a process. -/
def entry (s : Procs) (names : Int → Chars) (p : Int) : ProcEntry :=
  ⟨p.toNat, names p, ((s.procTable.get p).map fun proc =>
    proc.threads.keyList.map Int.toNat).getD []⟩

theorem displayThread_eq (h : s.Labelled names) (hfits : s.LongFits T)
    (hp : s.procTable.get p = some proc) (hl : proc.threads.keyList[j]? = some l) :
    s.displayThread T proc j = some (ProcEntry.threadLine j l.toNat) := by
  have hnum := h.list.lids p proc hp
  have hget := proc.threads.mem_keyList.1 (List.mem_of_getElem? hl)
  obtain ⟨t, ht⟩ := Option.ne_none_iff_exists'.1 hget
  obtain ⟨hpos, hlt⟩ := hnum.keys l hget
  obtain ⟨lid, rfl⟩ := Int.eq_ofNat_of_zero_le hpos
  have hlisted : s.listed p lid = some t := by rw [listed, hp, Option.bind_some, ht]
  obtain ⟨th, hth, -, hlid⟩ := (h.list.agree.agree p lid t).1 hlisted
  have hnth : proc.threads.nth j = some t := by rw [hnum.ok.nth_eq, hl, Option.bind_some, ht]
  have hlong := fmt_long ((hfits.lids p proc hp).of_le hpos (Int.le_of_lt hlt))
  have hj : j < HASHTABLE_CAPACITY := by
    have hlen := (List.getElem?_eq_some_iff.1 hl).1
    rw [hnum.ok.length_keyList] at hlen
    exact hlen.trans_le hnum.ok.size_le
  have hindex := fmt_long (hfits.index hj)
  rw [displayThread, hnth, Option.bind_eq_bind, Option.bind_some, getLid, hth]
  dsimp only
  rw [hlid, logln_eq (.cons (fmt_str (by decide)) (.cons hindex (.cons (fmt_str (by decide))
    (.cons hlong .nil))))]
  simp only [ProcEntry.threadLine, List.flatten_cons, List.flatten_nil, List.append_nil,
    List.append_assoc]
  rfl

theorem displayThreads_eq (h : s.Labelled names) (hfits : s.LongFits T)
    (hp : s.procTable.get p = some proc) :
    logLoop (s.displayThread T proc) proc.threads.size 0 =
      some ((proc.threads.keyList.map Int.toNat).mapIdx ProcEntry.threadLine).flatten := by
  have hlen : proc.threads.size =
      ((proc.threads.keyList.map Int.toNat).mapIdx ProcEntry.threadLine).length := by
    rw [List.length_mapIdx, List.length_map, (h.list.lids p proc hp).ok.length_keyList]
  rw [hlen]
  apply logLoop_eq
  intro j t ht
  rw [List.getElem?_mapIdx, List.getElem?_map, Option.map_map] at ht
  obtain ⟨l, hl, rfl⟩ := Option.map_eq_some_iff.1 ht
  rw [Nat.zero_add]
  exact displayThread_eq h hfits hp hl

theorem displayProc_eq (h : s.Labelled names) (hfits : s.LongFits T)
    (hi : s.procTable.keyList[i]? = some p) :
    s.displayProc T i = some ((s.entry names p).text i) := by
  have hok : s.procTable.Ok := h.list.tables.procOk
  have hget := s.procTable.mem_keyList.1 (List.mem_of_getElem? hi)
  obtain ⟨proc, hp⟩ := Option.ne_none_iff_exists'.1 hget
  obtain ⟨hpos, hle⟩ := h.list.tables.procKeys p hget
  obtain ⟨id, rfl⟩ := Int.eq_ofNat_of_zero_le (Int.le_of_lt hpos)
  obtain ⟨hid, hname⟩ := h.label id proc hp
  have hnth : s.procTable.nth i = some proc := by rw [hok.nth_eq, hi, Option.bind_some, hp]
  have hi' : i < HASHTABLE_CAPACITY := by
    have hlen := (List.getElem?_eq_some_iff.1 hi).1
    rw [hok.length_keyList] at hlen
    exact hlen.trans_le hok.size_le
  have hindex := fmt_long (hfits.index hi')
  have hlong := fmt_long (hfits.ids.of_le (Int.natCast_nonneg id) hle)
  have hshown : (FmtArg.str proc.name).fmt = some (names id) := congrArg some hname
  rw [displayProc, hnth, Option.bind_eq_bind, Option.bind_some, hid,
    logln_eq (.cons hindex (.cons (fmt_str (by decide)) (.cons hshown
      (.cons (fmt_str (by decide)) (.cons hlong (.cons (fmt_str (by decide)) .nil)))))),
    displayThreads_eq h hfits hp, entry, hp]
  simp only [ProcEntry.text, List.flatten_cons, List.flatten_nil, List.append_nil,
    List.append_assoc, Option.bind_eq_bind, Option.bind_some, Option.map_some, Option.getD_some,
    Int.toNat_natCast]
  rfl

/-- The keys of a table as numbers. -/
theorem keyList_toNat {h : Hashtable α} (ok : h.Ok) (hpos : ∀ k, h.get k ≠ none → 0 ≤ k) :
    (h.keyList.map Int.toNat).Nodup ∧
      ∀ k : Int, (∃ n ∈ h.keyList.map Int.toNat, n = k) ↔ h.get k ≠ none := by
  have hnat : ∀ k ∈ h.keyList, (k.toNat : Int) = k := fun k hk =>
    Int.toNat_of_nonneg (hpos k (h.mem_keyList.1 hk))
  constructor
  · refine ok.keyList_nodup.map_on fun k hk k' hk' he => ?_
    rw [← hnat k hk, he, hnat k' hk']
  · intro k
    rw [← h.mem_keyList]
    constructor
    · rintro ⟨n, hn, rfl⟩
      obtain ⟨k, hk, rfl⟩ := List.mem_map.1 hn
      rwa [hnat k hk]
    · exact fun hk => ⟨k.toNat, List.mem_map_of_mem hk, hnat k hk⟩

theorem Labelled.entries (h : s.Labelled names) :
    ∀ e ∈ s.procTable.keyList.map (s.entry names), ∃ proc,
      s.procTable.get e.id = some proc ∧ e.name = names e.id ∧
        e.lids = proc.threads.keyList.map Int.toNat := by
  intro e he
  obtain ⟨p, hp, rfl⟩ := List.mem_map.1 he
  have hget := s.procTable.mem_keyList.1 hp
  obtain ⟨proc, hproc⟩ := Option.ne_none_iff_exists'.1 hget
  obtain ⟨id, rfl⟩ := Int.eq_ofNat_of_zero_le (Int.le_of_lt (h.list.tables.procKeys p hget).1)
  refine ⟨proc, hproc, rfl, ?_⟩
  rw [entry, hproc]
  rfl

theorem Labelled.lists (h : s.Labelled names) :
    s.Lists names (s.procTable.keyList.map (s.entry names)) := by
  have hpos : ∀ p, s.procTable.get p ≠ none → 0 ≤ p := fun p hp =>
    Int.le_of_lt (h.list.tables.procKeys p hp).1
  have hok : s.procTable.Ok := h.list.tables.procOk
  obtain ⟨hnodup, hlive⟩ := keyList_toNat hok hpos
  have hids : (s.procTable.keyList.map (s.entry names)).map ProcEntry.id =
      s.procTable.keyList.map Int.toNat := List.map_map ..
  refine ⟨?_, fun p => ?_, fun e he => ?_, fun e he => ?_, fun e he l => ?_⟩
  · rw [hids]
    exact hnodup
  · refine (hlive p).symm.trans ?_
    rw [← hids]
    generalize s.procTable.keyList.map (s.entry names) = es
    simp only [List.mem_map, exists_exists_and_eq_and]
  · obtain ⟨_, _, hname, _⟩ := h.entries e he
    exact hname
  · obtain ⟨proc, hp, _, hlids⟩ := h.entries e he
    have hnum := h.list.lids e.id proc hp
    rw [hlids]
    exact (keyList_toNat hnum.ok fun k hk => (hnum.keys k hk).1).1
  · obtain ⟨proc, hp, _, hlids⟩ := h.entries e he
    have hnum := h.list.lids e.id proc hp
    rw [hlids, (keyList_toNat hnum.ok fun k hk => (hnum.keys k hk).1).2 l,
      Option.ne_none_iff_exists']
    refine exists_congr fun t => ?_
    rw [← h.list.agree.agree, listed, hp, Option.bind_some]

/-- In every run, `display` lists each process once, by its name, and under it each of its threads
once. -/
theorem display_lists (hr : Reachable (fun x => x.1 = boot) NamingStep (s, names))
    (hfits : s.LongFits T) :
    ∃ es, s.display T = some (es.mapIdx ProcEntry.text).flatten ∧ s.Lists names es := by
  have h : s.Labelled names := labelled_of_reachable hr
  have hok : s.procTable.Ok := h.list.tables.procOk
  refine ⟨_, ?_, h.lists⟩
  have hlen : s.procTable.size =
      ((s.procTable.keyList.map (s.entry names)).mapIdx ProcEntry.text).length := by
    rw [List.length_mapIdx, List.length_map, hok.length_keyList]
  rw [display, hlen]
  apply logLoop_eq
  intro i t ht
  rw [List.getElem?_mapIdx, List.getElem?_map, Option.map_map] at ht
  obtain ⟨p, hp, rfl⟩ := Option.map_eq_some_iff.1 ht
  rw [Nat.zero_add]
  exact displayProc_eq h hfits hp

/-- The process of the shell, with one thread. -/
def shellProc : Procs := ((boot.create default (chars "sh") 0).2.spawnThread 1 7 100).2

theorem shellProc_get (p : Int) : shellProc.procTable.get p =
    if p = 1 then some { nproc default 1 (chars "sh") 0 with
      threadCounter := 1
      threads := (Hashtable.zeroed.add 0 0).2 }
    else none := by
  have hcreate := get_create boot_ok default (chars "sh") 0
  refine (procTable_enrol (hcreate 1) 7 100 p).trans ?_
  split_ifs with hp
  · rfl
  · rw [hcreate, if_neg fun h => hp h.1]
    exact Hashtable.zeroed_unused.get p

theorem display_lists_shellProc : ∃ es : List ProcEntry,
    chars "0 -> sh (1)\n    0 -> Thread 0\n" = (es.mapIdx ProcEntry.text).flatten ∧
      shellProc.Lists (Function.update (fun _ => []) 1 (chars "sh")) es := by
  have hu : (nproc default 1 (chars "sh") 0).threads.Unused := Hashtable.zeroed_unused
  have hu' : (nproc default 1 (chars "sh") 0).fds.Unused := Hashtable.zeroed_unused
  have hboot : Reachable (fun x => x.1 = boot) NamingStep (boot, fun _ => []) := .init rfl
  have htwo := (hboot.step (.create boot _ default (chars "sh") 0 hu hu')).step (.other _ _
    (.spawnThread _ 1 7 100 (by decide) fun proc hp => by cases hp; decide) rfl)
  have hfits : shellProc.LongFits .int64_t := by
    refine ⟨.inr rfl, by decide, fun p proc hp => ?_⟩
    rw [shellProc_get] at hp
    split_ifs at hp
    cases hp
    decide
  obtain ⟨es, hshown, hlists⟩ := display_lists htwo hfits
  have htext : shellProc.display .int64_t =
      some (chars "0 -> sh (1)\n    0 -> Thread 0\n") := by decide +kernel
  exact ⟨es, Option.some.inj (htext.symm.trans hshown), hlists⟩

end Procs

end Tupai
