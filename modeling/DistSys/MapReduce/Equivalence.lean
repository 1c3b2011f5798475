import DistSys.Lib.Group
import DistSys.MapReduce.Worker

/-!
# The distributed job gives the output of the sequential program

The names of the files of a job are distinct, so a reduce task reads exactly the pairs of its slot
that the map tasks wrote. The two-index loop collects the groups of a sorted list, so every key is
reduced once, with all its values.

Main result: `distributed_eq_sequential`.
-/

namespace DistSys.MapReduce

/-! ## Names -/

theorem toNat_digit {d : ℕ} (h : d < 10) : (UInt8.ofNat (48 + d)).toNat = 48 + d := by
  rw [UInt8.toNat_ofNat', Nat.mod_eq_of_lt (by omega)]

theorem mem_decimal {n : ℕ} {b : UInt8} (h : b ∈ decimal n) : 48 ≤ b.toNat ∧ b.toNat < 58 := by
  unfold decimal at h
  split at h
  · rw [List.mem_singleton] at h
    subst h
    decide
  · rw [List.mem_reverse, List.mem_map] at h
    obtain ⟨d, hd, rfl⟩ := h
    have hlt := Nat.digits_lt_base (by decide) hd
    rw [toNat_digit hlt]
    omega

theorem minus_notMem_decimal (n : ℕ) : 45 ∉ decimal n := fun h => by
  have hb := mem_decimal h
  exact absurd hb.1 (by decide)

/-- A number can be read back from its digits. -/
theorem ofDigits_decimal (n : ℕ) :
    Nat.ofDigits 10 ((decimal n).reverse.map fun b => b.toNat - 48) = n := by
  unfold decimal
  split
  · rename_i h
    rw [h]
    rfl
  · rw [List.reverse_reverse, List.map_map]
    have hid : (Nat.digits 10 n).map ((fun b : UInt8 => b.toNat - 48) ∘
        fun d => UInt8.ofNat (48 + d)) = Nat.digits 10 n := by
      refine (List.map_congr_left fun d hd => ?_).trans (List.map_id _)
      simp only [Function.comp_apply, id_eq]
      rw [toNat_digit (Nat.digits_lt_base (by decide) hd)]
      omega
    rw [hid, Nat.ofDigits_digits]

theorem decimal_injective : Function.Injective decimal := fun m n h => by
  rw [← ofDigits_decimal m, h, ofDigits_decimal]

theorem formatInt_injective : Function.Injective formatInt := by
  intro x y h
  unfold formatInt at h
  split at h <;> split at h
  · have := decimal_injective (List.cons_injective h)
    omega
  · exact absurd (h ▸ List.mem_cons_self) (minus_notMem_decimal _)
  · exact absurd (h.symm ▸ List.mem_cons_self) (minus_notMem_decimal _)
  · have := decimal_injective h
    omega

theorem formatInt_natCast (n : ℕ) : formatInt n = decimal n := by
  rw [formatInt, if_neg (by omega), Int.natAbs_natCast]

/-- A separator that does not occur before it marks the place. -/
theorem append_cons_inj {α : Type*} {c : α} {l₁ l₂ r₁ r₂ : List α} (h₁ : c ∉ l₁) (h₂ : c ∉ l₂)
    (h : l₁ ++ c :: r₁ = l₂ ++ c :: r₂) : l₁ = l₂ ∧ r₁ = r₂ := by
  induction l₁ generalizing l₂ with
  | nil =>
    cases l₂ with
    | nil => exact ⟨rfl, List.cons_injective h⟩
    | cons b l₂ =>
      rw [List.nil_append, List.cons_append] at h
      exact absurd (List.cons.inj h).1 fun hb => h₂ (hb ▸ List.mem_cons_self)
  | cons a l₁ ih =>
    cases l₂ with
    | nil =>
      rw [List.nil_append, List.cons_append] at h
      exact absurd (List.cons.inj h).1.symm fun hb => h₁ (hb ▸ List.mem_cons_self)
    | cons b l₂ =>
      rw [List.cons_append, List.cons_append, List.cons.injEq] at h
      obtain ⟨hl, hr⟩ := ih (fun hc => h₁ (List.mem_cons_of_mem a hc))
        (fun hc => h₂ (List.mem_cons_of_mem b hc)) h.2
      exact ⟨by rw [h.1, hl], hr⟩

theorem intermediateName_inj {i i' r r' : ℕ}
    (h : intermediateName i r = intermediateName i' r') : i = i' ∧ r = r' := by
  simp only [intermediateName, formatInt_natCast, List.append_assoc] at h
  obtain ⟨hi, hr⟩ := append_cons_inj (minus_notMem_decimal i) (minus_notMem_decimal i')
    (List.append_cancel_left h)
  exact ⟨decimal_injective hi, decimal_injective hr⟩

theorem outName_injective : Function.Injective outName := fun _ _ h =>
  formatInt_injective (List.append_cancel_left h)

theorem outName_ne_intermediateName (x : ℤ) (i r : ℕ) : outName x ≠ intermediateName i r := by
  intro h
  simp only [outName, intermediateName, formatInt_natCast, List.cons_append, List.nil_append,
    List.cons.injEq, true_and] at h
  -- The name of an output has an `o` where the other has a digit.
  cases hd : decimal i with
  | nil =>
    rw [hd] at h
    exact absurd (List.cons.inj h).1 (by decide)
  | cons b rest =>
    have hb : b ∈ decimal i := by simp [hd]
    rw [hd, List.cons_append, List.cons.injEq] at h
    rw [← h.1] at hb
    exact absurd (mem_decimal hb).2 (by decide)

/-! ## Loops -/

/-- A slot holds the pairs whose keys belong to its reduce task, in order. -/
theorem getElem?_slots (nReduce : ℕ) (l : List KeyValue) {r : ℕ} (hr : r < nReduce) :
    (slots nReduce l)[r]? = some (l.filter fun kv => ihash kv.key % nReduce = r) := by
  induction l using List.reverseRecOn with
  | nil => simp [slots, hr]
  | append_singleton l kv ih =>
    rw [slots] at ih ⊢
    rw [List.foldl_append, List.foldl_cons, List.foldl_nil, List.getElem?_modify, ih,
      List.filter_append]
    by_cases hkv : ihash kv.key % nReduce = r
    · simp [hkv]
    · simp [hkv]

theorem length_slots (nReduce : ℕ) (l : List KeyValue) : (slots nReduce l).length = nReduce := by
  induction l using List.reverseRecOn with
  | nil => simp [slots]
  | append_singleton l kv ih =>
    rw [slots] at ih ⊢
    rw [List.foldl_append, List.foldl_cons, List.foldl_nil, List.length_modify, ih]

/-- The files of a map task, and all others. -/
theorem writeSlots_apply (i p : ℕ) (slot : List (List KeyValue)) (files : Files) (name : Bytes) :
    writeSlots i p slot files name = files name ∨
      ∃ q s, slot[q]? = some s ∧ name = intermediateName i (p + q : ℕ) ∧
        writeSlots i p slot files name = some (.json s) := by
  induction slot generalizing p files with
  | nil => exact .inl rfl
  | cons s rest ih =>
    rw [writeSlots]
    rcases ih (p + 1) (Function.update files (intermediateName i p) (some (.json s))) with
      hold | ⟨q, s', hq, hname, hnew⟩
    · rw [hold]
      by_cases hp : name = intermediateName i p
      · subst hp
        rw [Function.update_self]
        exact .inr ⟨0, s, rfl, rfl, rfl⟩
      · rw [Function.update_of_ne hp]
        exact .inl rfl
    · exact .inr ⟨q + 1, s', hq, by rw [hname]; congr 2; omega, hnew⟩

/-- What a reduce task reads if every file holds the records of its map task. -/
theorem readAll_eq {files : Files} {name : ℕ → Bytes} {records : ℕ → List KeyValue} {is : List ℕ}
    (h : ∀ i ∈ is, ∀ content, files (name i) = some content → content = .json (records i))
    {l : List KeyValue} (hl : readAll files (is.map name) = some l) : l = is.flatMap records := by
  induction is generalizing l with
  | nil =>
    cases hl
    rfl
  | cons i is ih =>
    rw [List.map_cons, readAll, Option.bind_eq_some_iff] at hl
    obtain ⟨content, hcontent, hl⟩ := hl
    obtain ⟨rest, hrest, rfl⟩ := Option.map_eq_some_iff.1 hl
    rw [h i List.mem_cons_self content hcontent, Content.decode,
      ih (fun j hj => h j (List.mem_cons_of_mem i hj)) hrest, List.flatMap_cons]

/-- The inner loop stops after the run of the key. -/
theorem scan_eq (l : List KeyValue) (key : Bytes) {fuel j : ℕ} (h : l.length ≤ j + fuel) :
    scan l key fuel j = j + ((l.drop j).takeWhile fun kv => kv.key = key).length := by
  induction fuel generalizing j with
  | zero =>
    rw [List.drop_eq_nil_of_le (by omega)]
    rfl
  | succ fuel ih =>
    rw [scan]
    by_cases hj : j < l.length
    · rw [List.getElem?_eq_getElem hj, List.drop_eq_getElem_cons hj]
      simp only
      by_cases hkey : l[j].key = key
      · rw [if_pos hkey, ih (by omega), List.takeWhile_cons_of_pos (by simpa using hkey),
          List.length_cons]
        omega
      · rw [if_neg hkey, List.takeWhile_cons_of_neg (by simpa using hkey)]
        rfl
    · rw [List.getElem?_eq_none (by omega), List.drop_eq_nil_of_le (by omega)]
      rfl

/-- The outer loop collects the groups. -/
theorem reduceLoop_eq (l : List KeyValue) {fuel i : ℕ} (h : l.length ≤ i + fuel) :
    reduceLoop l fuel i = groups KeyValue.key KeyValue.value (l.drop i) := by
  induction fuel generalizing i with
  | zero =>
    rw [List.drop_eq_nil_of_le (by omega)]
    rfl
  | succ fuel ih =>
    rw [reduceLoop]
    by_cases hi : i < l.length
    · have hscan := scan_eq l l[i].key (show l.length ≤ i + 1 + l.length by omega)
      have hsplit := List.takeWhile_append_dropWhile (p := fun kv => kv.key = l[i].key)
        (l := l.drop (i + 1))
      generalize htw : (l.drop (i + 1)).takeWhile (fun kv => kv.key = l[i].key) = run
        at hscan hsplit
      generalize hdw : (l.drop (i + 1)).dropWhile (fun kv => kv.key = l[i].key) = rest at hsplit
      have hdrop : l.drop i = l[i] :: (run ++ rest) := by
        rw [hsplit, List.drop_eq_getElem_cons hi]
      have hvalues : (l.take (i + 1 + run.length)).drop i = l[i] :: run := by
        rw [List.drop_take, hdrop, show i + 1 + run.length - i = run.length + 1 by omega,
          List.take_succ_cons, List.take_left']
        rfl
      have hrest : l.drop (i + 1 + run.length) = rest := by
        rw [← List.drop_drop, ← hsplit, List.drop_left']
        rfl
      rw [List.getElem?_eq_getElem hi, List.drop_eq_getElem_cons hi, groups_cons, htw, hdw]
      simp only
      rw [hscan, hvalues, ih (by omega), hrest, List.map_cons]
    · rw [List.getElem?_eq_none (by omega), List.drop_eq_nil_of_le (by omega)]
      rfl

theorem reduceCalls_eq (l : List KeyValue) :
    reduceCalls l = groups KeyValue.key KeyValue.value l :=
  reduceLoop_eq l (by omega)

/-! ## Lines -/

theorem lines_append_newline (l text : Bytes) :
    lines (l ++ 10 :: text) = lines (l ++ [10]) ++ lines text := by
  induction l with
  | nil => rfl
  | cons b l ih =>
    simp only [List.cons_append, lines, ih]
    by_cases hb : b = 10
    · rw [if_pos hb, if_pos hb]
      rfl
    · rw [if_neg hb, if_neg hb]
      cases hl : lines (l ++ [10]) with
      | nil =>
        -- A text with a newline has a line.
        exfalso
        cases l with
        | nil => cases hl
        | cons b' l' =>
          rw [List.cons_append, lines] at hl
          split at hl
          · cases hl
          · split at hl <;> cases hl
      | cons line rest => rfl

theorem lines_output (app : App) (calls : List (Bytes × List Bytes)) :
    lines (app.output calls) =
      calls.flatMap fun call => lines (formatLine call.1 (app.reducef call.1 call.2)) := by
  induction calls with
  | nil => rfl
  | cons call calls ih =>
    rw [App.output] at ih ⊢
    rw [List.flatMap_cons, List.flatMap_cons, ← ih, formatLine]
    have hline : ∀ rest, (call.1 ++ 32 :: (app.reducef call.1 call.2 ++ [10])) ++ rest =
        (call.1 ++ 32 :: app.reducef call.1 call.2) ++ 10 :: rest := by
      intro rest
      simp
    rw [hline, lines_append_newline]
    simp

/-! ## Reducing every key once -/

/-- The calls reduce every key of the pairs once, with all its values. -/
structure Reduces (emitted : List KeyValue) (calls : List (Bytes × List Bytes)) : Prop where
  nodup : (calls.map Prod.fst).Nodup
  mem_keys : ∀ k, k ∈ calls.map Prod.fst ↔ k ∈ emitted.map KeyValue.key
  values : ∀ call ∈ calls, call.2.Perm (valuesOf KeyValue.key KeyValue.value call.1 emitted)

theorem reduces_reduceCalls (s : Sorter) (emitted : List KeyValue) :
    Reduces emitted (reduceCalls (s.sort emitted)) := by
  have hperm := s.perm emitted
  obtain ⟨hvalues, hnodup⟩ := groups_sorted KeyValue.value (s.sorted emitted)
  rw [reduceCalls_eq]
  refine ⟨hnodup, fun k => ?_, fun call hcall => ?_⟩
  · rw [mem_keys_groups]
    exact (hperm.map _).mem_iff
  · rw [hvalues call hcall]
    exact perm_valuesOf hperm _

/-- The calls of the reduce tasks together, where the task of a key is given by its hash. -/
theorem reduces_flatMap {nReduce : ℕ} (hn : 0 < nReduce) {emitted : List KeyValue}
    {calls : ℕ → List (Bytes × List Bytes)}
    (h : ∀ r, Reduces (emitted.filter fun kv => ihash kv.key % nReduce = r) (calls r)) :
    Reduces emitted ((List.range nReduce).flatMap calls) := by
  have hkeys : ∀ r k, k ∈ (calls r).map Prod.fst ↔
      k ∈ emitted.map KeyValue.key ∧ ihash k % nReduce = r := by
    intro r k
    rw [(h r).mem_keys, List.mem_map, List.mem_map]
    constructor
    · rintro ⟨kv, hkv, rfl⟩
      rw [List.mem_filter, decide_eq_true_eq] at hkv
      exact ⟨⟨kv, hkv.1, rfl⟩, hkv.2⟩
    · rintro ⟨⟨kv, hkv, rfl⟩, hr⟩
      exact ⟨kv, List.mem_filter.2 ⟨hkv, decide_eq_true hr⟩, rfl⟩
  refine ⟨?_, fun k => ?_, fun call hcall => ?_⟩
  · rw [List.map_flatMap, List.nodup_flatMap]
    refine ⟨fun r _ => (h r).nodup, List.nodup_range.pairwise_of_forall_ne fun r _ r' _ hne => ?_⟩
    intro k hk hk'
    exact hne (((hkeys r k).1 hk).2.symm.trans ((hkeys r' k).1 hk').2)
  · rw [List.map_flatMap, List.mem_flatMap]
    constructor
    · rintro ⟨r, -, hk⟩
      exact ((hkeys r k).1 hk).1
    · exact fun hk => ⟨ihash k % nReduce, List.mem_range.2 (Nat.mod_lt _ hn),
        (hkeys _ k).2 ⟨hk, rfl⟩⟩
  · obtain ⟨r, -, hmem⟩ := List.mem_flatMap.1 hcall
    have hr := ((hkeys r call.1).1 (List.mem_map.2 ⟨call, hmem, rfl⟩)).2
    have hvalues := (h r).values call hmem
    rw [valuesOf, List.filter_filter] at hvalues
    -- Every pair with the key is in the part of the task.
    refine hvalues.trans (List.Perm.of_eq ?_)
    rw [valuesOf]
    congr 1
    refine List.filter_congr fun kv _ => ?_
    by_cases hkey : kv.key = call.1
    · simp [hkey, hr]
    · simp [hkey]

/-- The output does not depend on how the keys are spread over tasks. -/
theorem Reduces.perm_output {app : App}
    (happ : ∀ k vs vs', vs.Perm vs' → app.reducef k vs = app.reducef k vs')
    {emitted : List KeyValue} {calls calls' : List (Bytes × List Bytes)}
    (h : Reduces emitted calls) (h' : Reduces emitted calls') :
    (lines (app.output calls)).Perm (lines (app.output calls')) := by
  have hline : ∀ {calls}, Reduces emitted calls → lines (app.output calls) =
      (calls.map Prod.fst).flatMap fun k =>
        lines (formatLine k (app.reducef k (valuesOf KeyValue.key KeyValue.value k emitted))) := by
    intro calls h
    rw [lines_output, List.flatMap_map]
    refine List.flatMap_congr fun call hcall => ?_
    rw [happ _ _ _ (h.values call hcall)]
  rw [hline h, hline h']
  refine List.Perm.flatMap_right _ ((List.perm_ext_iff_of_nodup h.nodup h'.nodup).2 fun k => ?_)
  rw [h.mem_keys, h'.mem_keys]

/-! ## The job -/

theorem mem_createMapTask {inputFiles : List String} {task : Task} :
    task ∈ Job.createMapTask inputFiles ↔
      ∃ (i : ℕ) (filename : String), inputFiles[i]? = some filename ∧
        task = ⟨.idle, i, filename, .map, 0⟩ := by
  rw [Job.createMapTask, List.mem_iff_getElem?]
  simp only [List.getElem?_mapIdx, Option.map_eq_some_iff]
  constructor
  · rintro ⟨i, filename, hi, rfl⟩
    exact ⟨i, filename, hi, rfl⟩
  · rintro ⟨i, filename, hi, rfl⟩
    exact ⟨i, filename, hi, rfl⟩

theorem mem_createReduceTask {nReduce : ℕ} {task : Task} :
    task ∈ Job.createReduceTask nReduce ↔
      ∃ r : ℕ, r < nReduce ∧ task = ⟨.idle, -r - 1, "", .reduce, 0⟩ := by
  simp only [Job.createReduceTask, List.mem_map, List.mem_range, eq_comm]

section
variable (app : App) (inputs : String → Option Bytes) (inputFiles : List String) (nReduce : ℕ)
  (sorts : ℤ → Sorter)

/-- The pairs that the map task of a file emits. -/
def emittedBy (filename : String) : List KeyValue :=
  ((inputs filename).map (app.mapf filename)).getD []

def emitted : List KeyValue := inputFiles.flatMap (emittedBy app inputs)

/-- What map task `i` writes for reduce task `r`. -/
def bucket (i r : ℕ) : List KeyValue :=
  ((inputFiles[i]?.map (emittedBy app inputs)).getD []).filter fun kv =>
    ihash kv.key % nReduce = r

/-- The calls of reduce task `r`. -/
def callsOf (r : ℕ) : List (Bytes × List Bytes) :=
  reduceCalls ((sorts (-r - 1)).sort
    ((emitted app inputs inputFiles).filter fun kv => ihash kv.key % nReduce = r))

def taskCalls (task : Task) : List (ℤ × Bytes × List Bytes) :=
  match task.state with
  | .reduce => (callsOf app inputs inputFiles nReduce sorts (-task.taskId - 1).toNat).map
      fun call => (task.taskId, call)
  | _ => []

variable {app inputs inputFiles nReduce sorts}

theorem range_flatMap_getElem? {α β : Type*} (l : List α) (g : α → List β) :
    ((List.range l.length).flatMap fun i => (l[i]?.map g).getD []) = l.flatMap g := by
  induction l with
  | nil => rfl
  | cons a l ih =>
    rw [List.length_cons, List.range_succ_eq_map, List.flatMap_cons, List.flatMap_map,
      List.flatMap_cons, ← ih]
    rfl

/-- The files of a reduce task together hold its part of the pairs. -/
theorem flatMap_bucket (r : ℕ) :
    ((List.range inputFiles.length).flatMap fun i =>
        bucket app inputs inputFiles nReduce i r) =
      (emitted app inputs inputFiles).filter fun kv => ihash kv.key % nReduce = r := by
  rw [emitted, List.filter_flatMap]
  refine Eq.trans ?_ (range_flatMap_getElem? inputFiles _)
  refine List.flatMap_congr fun i _ => ?_
  rw [bucket]
  cases inputFiles[i]? <;> rfl

theorem mapAll_eq (h : ∀ f ∈ inputFiles, (inputs f).isSome) :
    mapAll app inputs inputFiles = some (emitted app inputs inputFiles) := by
  induction inputFiles with
  | nil => rfl
  | cons f files ih =>
    obtain ⟨content, hcontent⟩ := Option.isSome_iff_exists.1 (h f List.mem_cons_self)
    rw [mapAll, hcontent, Option.bind_some, ih fun g hg => h g (List.mem_cons_of_mem f hg),
      Option.map_some, emitted, emitted, List.flatMap_cons, emittedBy, hcontent]
    rfl

structure Work.Inv (app : App) (inputs : String → Option Bytes) (inputFiles : List String)
    (nReduce : ℕ) (sorts : ℤ → Sorter) (w : Work) : Prop where
  intermediate : ∀ (i r : ℕ) (content : Content), w.files (intermediateName i r) = some content →
    content = .json (bucket app inputs inputFiles nReduce i r)
  out : ∀ r : ℕ, ⟨.idle, -r - 1, "", .reduce, 0⟩ ∈ w.finished →
    w.files (outName (-r - 1)) =
      some (.text (app.output (callsOf app inputs inputFiles nReduce sorts r)))
  calls : w.calls = w.finished.flatMap (taskCalls app inputs inputFiles nReduce sorts)
  readable : ∀ task ∈ w.finished, task.state = .map → (inputs task.filename).isSome

theorem Work.inv_init : Work.init.Inv app inputs inputFiles nReduce sorts where
  intermediate := nofun
  out := by simp [Work.init]
  calls := rfl
  readable := by simp [Work.init]

theorem Work.Inv.doMap {w w' : Work} (inv : w.Inv app inputs inputFiles nReduce sorts) {i : ℕ}
    {filename : String} (hi : inputFiles[i]? = some filename)
    (hs : doMap app inputs nReduce w ⟨.idle, i, filename, .map, 0⟩ = some w') :
    w'.Inv app inputs inputFiles nReduce sorts := by
  obtain ⟨content, hcontent, rfl⟩ := Option.map_eq_some_iff.1 hs
  simp only at hcontent
  have hemitted : (inputFiles[i]?.map (emittedBy app inputs)).getD [] =
      app.mapf filename content := by
    rw [hi, Option.map_some, Option.getD_some, emittedBy, hcontent]
    rfl
  refine ⟨fun i' r c hc => ?_, fun r hr => ?_, ?_, fun task htask hmap => ?_⟩
  · simp only at hc
    rcases writeSlots_apply i 0 (slots nReduce (app.mapf filename content)) w.files
      (intermediateName i' r) with hold | ⟨q, s, hq, hname, hnew⟩
    · rw [hold] at hc
      exact inv.intermediate i' r c hc
    · obtain ⟨rfl, rfl⟩ := intermediateName_inj hname
      have hlt : 0 + q < nReduce := by
        rw [Nat.zero_add, ← length_slots nReduce (app.mapf filename content)]
        exact (List.getElem?_eq_some_iff.1 hq).1
      rw [Nat.zero_add] at hlt
      rw [getElem?_slots nReduce _ hlt, Option.some.injEq] at hq
      rw [hnew, Option.some.injEq] at hc
      rw [← hc, ← hq, bucket, hemitted, Nat.zero_add]
  · rcases List.mem_append.1 hr with hold | hnew
    · rcases writeSlots_apply i 0 (slots nReduce (app.mapf filename content)) w.files
        (outName (-r - 1)) with hkeep | ⟨q, s, -, hname, -⟩
      · exact hkeep.trans (inv.out r hold)
      · exact absurd hname (outName_ne_intermediateName _ _ _)
    · rw [List.mem_singleton, Task.mk.injEq] at hnew
      cases hnew.2.2.2.1
  · simp only [List.flatMap_append, ← inv.calls]
    exact (List.append_nil _).symm
  · rcases List.mem_append.1 htask with hold | hnew
    · exact inv.readable task hold hmap
    · rw [List.mem_singleton] at hnew
      rw [hnew, hcontent]
      rfl

theorem Work.Inv.doReduce {w w' : Work} (inv : w.Inv app inputs inputFiles nReduce sorts) {r : ℕ}
    (hs : doReduce app inputFiles.length sorts w ⟨.idle, -r - 1, "", .reduce, 0⟩ = some w') :
    w'.Inv app inputs inputFiles nReduce sorts := by
  obtain ⟨l, hl, rfl⟩ := Option.map_eq_some_iff.1 hs
  simp only at hl
  have hid : -(-(r : ℤ) - 1) - 1 = r := by omega
  rw [hid, generateFileName] at hl
  have hread := readAll_eq (fun i _ content => inv.intermediate i r content) hl
  rw [flatMap_bucket] at hread
  have hcalls : reduceCalls ((sorts (-r - 1)).sort l) =
      callsOf app inputs inputFiles nReduce sorts r := by
    rw [hread, callsOf]
  simp only [hcalls]
  refine ⟨fun i r' c hc => ?_, fun r' hr' => ?_, ?_, fun task htask hmap => ?_⟩
  · simp only at hc
    rw [Function.update_of_ne (outName_ne_intermediateName _ _ _).symm] at hc
    exact inv.intermediate i r' c hc
  · simp only
    by_cases hr : r' = r
    · subst hr
      rw [Function.update_self]
    · have hne : outName (-r' - 1) ≠ outName (-r - 1) := fun h => by
        have := outName_injective h
        omega
      rw [Function.update_of_ne hne]
      rcases List.mem_append.1 hr' with hold | hnew
      · exact inv.out r' hold
      · rw [List.mem_singleton, Task.mk.injEq] at hnew
        omega
  · simp only [List.flatMap_append, ← inv.calls, List.flatMap_singleton]
    congr 1
    simp only [taskCalls, hid, Int.toNat_natCast]
  · rcases List.mem_append.1 htask with hold | hnew
    · exact inv.readable task hold hmap
    · rw [List.mem_singleton] at hnew
      rw [hnew] at hmap
      cases hmap

theorem Work.Inv.step {w w' : Work} {task : Task}
    (inv : w.Inv app inputs inputFiles nReduce sorts)
    (htask : task ∈ Job.createMapTask inputFiles ++ Job.createReduceTask nReduce)
    (hs : w.step app inputs inputFiles.length nReduce sorts task = some w') :
    w'.Inv app inputs inputFiles nReduce sorts := by
  rcases List.mem_append.1 htask with hmap | hreduce
  · obtain ⟨i, filename, hi, rfl⟩ := mem_createMapTask.1 hmap
    exact inv.doMap hi hs
  · obtain ⟨r, -, rfl⟩ := mem_createReduceTask.1 hreduce
    exact inv.doReduce hs

theorem Work.finished_run {w w' : Work} {schedule : List Task}
    (hrun : run (Work.step app inputs inputFiles.length nReduce sorts) w schedule = some w') :
    w'.finished = w.finished ++ schedule := by
  induction schedule generalizing w with
  | nil =>
    cases hrun
    exact (List.append_nil _).symm
  | cons task schedule ih =>
    obtain ⟨w₁, hs, hrun⟩ := run_cons_eq_some.1 hrun
    have hfinished : w₁.finished = w.finished ++ [task] := by
      unfold Work.step at hs
      split at hs
      · obtain ⟨_, -, rfl⟩ := Option.map_eq_some_iff.1 hs
        rfl
      · obtain ⟨_, -, rfl⟩ := Option.map_eq_some_iff.1 hs
        rfl
      · cases hs
    rw [ih hrun, hfinished, List.append_assoc]
    rfl

end

/-- The lines of the output of reduce task `r`. -/
def outLines (files : Files) (r : ℕ) : List Bytes :=
  match files (outName (-r - 1)) with
  | some (.text bytes) => lines bytes
  | _ => []

/-- An element whose key comes once is the only one with its key. -/
theorem filter_eq_singleton {α K : Type*} [DecidableEq K] {f : α → K} {l : List α} {a : α}
    (hl : (l.map f).Nodup) (ha : a ∈ l) : (l.filter fun b => f b = f a) = [a] := by
  induction l with
  | nil => cases ha
  | cons b l ih =>
    rw [List.map_cons, List.nodup_cons] at hl
    rcases List.mem_cons.1 ha with rfl | hmem
    · rw [List.filter_cons_of_pos (by simp), List.filter_eq_nil_iff.2]
      intro c hc hkey
      exact hl.1 (List.mem_map.2 ⟨c, hc, of_decide_eq_true hkey⟩)
    · have hne : f b ≠ f a := fun h => hl.1 (h ▸ List.mem_map.2 ⟨a, hmem, rfl⟩)
      rw [List.filter_cons_of_neg (by simpa using hne), ih hl.2 hmem]

/-- **The distributed job equals the sequential one.** If every task of the job has been run to
completion once, in any order, the lines of all outputs are those that the sequential program
writes. Every key is reduced once, by one task, with all the values emitted for it. -/
theorem distributed_eq_sequential (app : App)
    (happ : ∀ k vs vs', vs.Perm vs' → app.reducef k vs = app.reducef k vs')
    (inputs : String → Option Bytes) (inputFiles : List String) {nReduce : ℕ} (hn : 0 < nReduce)
    (sorts : ℤ → Sorter) (s : Sorter) {schedule : List Task}
    (hschedule : schedule.Perm (Job.createMapTask inputFiles ++ Job.createReduceTask nReduce))
    {w : Work}
    (hrun : run (Work.step app inputs inputFiles.length nReduce sorts) .init schedule = some w) :
    ∃ pairs text, mapAll app inputs inputFiles = some pairs ∧
      mrsequential app inputs s inputFiles = some text ∧
      ((List.range nReduce).flatMap (outLines w.files)).Perm (lines text) ∧
      ∀ k ∈ pairs.map KeyValue.key, ∃ (r : ℕ) (vs : List Bytes), r < nReduce ∧
        (w.calls.filter fun call => call.2.1 = k) = [(-(r : ℤ) - 1, k, vs)] ∧
        vs.Perm (valuesOf KeyValue.key KeyValue.value k pairs) := by
  have inv : w.Inv app inputs inputFiles nReduce sorts :=
    run_induction (C := fun _ task => task ∈ _) (fun _ _ _ inv htask hs => inv.step htask hs)
      (along_of_forall fun task htask => hschedule.mem_iff.1 htask) hrun Work.inv_init
  have hfinished : w.finished = schedule := Work.finished_run hrun
  have hdone : ∀ {task}, task ∈ Job.createMapTask inputFiles ++ Job.createReduceTask nReduce →
      task ∈ w.finished := fun h => hfinished ▸ hschedule.mem_iff.2 h
  have hmap : mapAll app inputs inputFiles = some (emitted app inputs inputFiles) := by
    refine mapAll_eq fun f hf => ?_
    obtain ⟨i, hi⟩ := List.mem_iff_getElem?.1 hf
    exact inv.readable _ (hdone (List.mem_append_left _ (mem_createMapTask.2 ⟨i, f, hi, rfl⟩))) rfl
  have hreduces := reduces_flatMap hn fun r => reduces_reduceCalls (sorts (-r - 1))
    ((emitted app inputs inputFiles).filter fun kv => ihash kv.key % nReduce = r)
  have hseq := reduces_reduceCalls s (emitted app inputs inputFiles)
  -- The calls of the job, in the order of the tasks.
  have hcalls : w.calls.Perm ((List.range nReduce).flatMap fun r : ℕ =>
      (callsOf app inputs inputFiles nReduce sorts r).map fun call => (-(r : ℤ) - 1, call)) := by
    rw [inv.calls, hfinished]
    refine (hschedule.flatMap_right _).trans (List.Perm.of_eq ?_)
    have hnone : (Job.createMapTask inputFiles).flatMap
        (taskCalls app inputs inputFiles nReduce sorts) = [] := by
      rw [List.flatMap_eq_nil_iff]
      intro task htask
      obtain ⟨i, f, -, rfl⟩ := mem_createMapTask.1 htask
      rfl
    rw [List.flatMap_append, hnone, List.nil_append, Job.createReduceTask, List.flatMap_map]
    refine List.flatMap_congr fun r _ => ?_
    simp only [taskCalls]
    rw [show (-(-(r : ℤ) - 1) - 1).toNat = r by omega]
  refine ⟨_, _, hmap, by rw [mrsequential, hmap]; rfl, ?_, fun k hk => ?_⟩
  · refine List.Perm.trans (List.Perm.of_eq ?_) (hreduces.perm_output happ hseq)
    rw [lines_output, List.flatMap_assoc]
    refine List.flatMap_congr fun r hr => ?_
    rw [outLines, inv.out r (hdone (List.mem_append_right _
      (mem_createReduceTask.2 ⟨r, List.mem_range.1 hr, rfl⟩)))]
    exact lines_output app _
  · have hsnd : w.calls.map (fun call => call.2.1) |>.Perm
        (((List.range nReduce).flatMap
          (callsOf app inputs inputFiles nReduce sorts)).map Prod.fst) := by
      refine (hcalls.map _).trans (List.Perm.of_eq ?_)
      rw [List.map_flatMap, List.map_flatMap]
      refine List.flatMap_congr fun r _ => ?_
      rw [List.map_map]
      rfl
    obtain ⟨⟨id, k', vs⟩, hmem, rfl⟩ := List.mem_map.1
      (hsnd.mem_iff.2 ((hreduces.mem_keys k).2 hk))
    obtain ⟨r, hr, hcall⟩ := List.mem_flatMap.1 (hcalls.mem_iff.1 hmem)
    obtain ⟨call, hcall, heq⟩ := List.mem_map.1 hcall
    cases heq
    refine ⟨r, vs, List.mem_range.1 hr,
      filter_eq_singleton (hsnd.nodup_iff.2 hreduces.nodup) hmem, ?_⟩
    exact hreduces.values (k', vs) (List.mem_flatMap.2 ⟨r, hr, hcall⟩)

/-- Counts the bytes of a text. -/
def countBytes : App where
  mapf _ content := content.map fun b => ⟨[b], [49]⟩
  reducef _ values := decimal values.length

def insertionSorter : Sorter where
  sort := List.insertionSort fun a b => a.key ≤ b.key
  perm := List.perm_insertionSort _
  sorted := by
    have : Std.Total fun a b : KeyValue => a.key ≤ b.key := ⟨fun a b => le_total a.key b.key⟩
    have : IsTrans KeyValue fun a b => a.key ≤ b.key := ⟨fun _ _ _ => le_trans⟩
    exact List.pairwise_insertionSort _

theorem distributed_eq_sequential_countBytes :
    ∃ w text, run (Work.step countBytes (fun _ => some [98, 97, 98]) 2 2 fun _ => insertionSorter)
        .init (Job.createMapTask ["x", "y"] ++ Job.createReduceTask 2) = some w ∧
      mrsequential countBytes (fun _ => some [98, 97, 98]) insertionSorter ["x", "y"] = some text ∧
      ((List.range 2).flatMap (outLines w.files)).Perm (lines text) := by
  have hsome : (run (Work.step countBytes (fun _ => some [98, 97, 98]) 2 2 fun _ => insertionSorter)
      .init (Job.createMapTask ["x", "y"] ++ Job.createReduceTask 2)).isSome := by decide +kernel
  obtain ⟨w, hw⟩ := Option.isSome_iff_exists.1 hsome
  obtain ⟨pairs, text, -, htext, hlines, -⟩ := distributed_eq_sequential countBytes
    (fun k vs vs' h => by simp only [countBytes, h.length_eq]) (fun _ => some [98, 97, 98])
    ["x", "y"] (by decide) (fun _ => insertionSorter) insertionSorter (List.Perm.refl _) hw
  exact ⟨w, text, hw, htext, hlines⟩

end DistSys.MapReduce
