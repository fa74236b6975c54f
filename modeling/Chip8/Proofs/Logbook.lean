import Chip8.Proofs.History

/-!
# The log as a history

What the log of a run says, as it is printed: `Machine.account` has the entries of a run as they
follow from the states of the machine and its results alone, and the log has exactly these
(`log_is_account`). A step announces an instruction before it executes it, and also if that fails
then; it reports a halt when it comes to it and never again; and it reports the key that it returns.
-/

namespace Chip8

/-- A record as it is printed. -/
structure Entry where
  level : Level
  text : String
  deriving DecidableEq, Repr

def Record.entry (r : Record) : Entry :=
  ⟨r.level, r.text⟩

variable {δ κ : Type}

namespace Machine

section Texts

variable (m : Machine δ κ)

/-- The word at the program counter of a running machine, if it is one that can be read and is an
instruction. -/
def nextWord? : Option Word :=
  match m.mode, m.memory.readWord m.registers.pc with
  | .running, .ok w => if (Instruction.decode? w).isSome then some w else none
  | _, _ => none

/-- The program counter, the word as a listing has it, the registers V0 to VF and I. -/
def announcement (w : Word) : String :=
  let values := (List.finRange 16).map fun x => Hexadecimal.bare 2 (m.registers.get x).toNat
  Hexadecimal.literal 3 m.registers.pc.toNat ++ ": " ++ w.listing ++ " "
    ++ ("[" ++ String.intercalate ", " values ++ "]") ++ " I="
    ++ Hexadecimal.literal 3 m.registers.index.toNat

def haltNotice (fault : Fault) : String :=
  "Halting at " ++ Hexadecimal.literal 3 m.registers.pc.toNat ++ ": " ++ fault.message

def announcements : List Entry :=
  (m.nextWord?.map fun w => ⟨.trace, m.announcement w⟩).toList

def soundEntries : List Entry :=
  match m.nextWord?.bind Instruction.decode? with
  | some (.setSound x) =>
    if 0 < m.registers.get x then
      [⟨.debug, "Sound on for " ++ toString (m.registers.get x).toNat ++ " ticks"⟩]
    else []
  | _ => []

end Texts

section Entries

variable [Display δ] [Keypad κ] (m : Machine δ κ)

/-- A wait that begins. -/
def waitEntries : List Entry :=
  match m.mode, m.step.state.mode with
  | .running, .waiting _ =>
    [⟨.debug, "Waiting for key at " ++ Hexadecimal.literal 3 m.registers.pc.toNat⟩]
  | _, _ => []

def keyEntries : List Entry :=
  match m.step.result with
  | .ok (.received key) => [⟨.debug, "Received key " ++ Hexadecimal.bare 1 key.val⟩]
  | _ => []

/-- A halt that the step comes to. -/
def haltEntries : List Entry :=
  match m.mode, m.step.state.mode with
  | .running, .halted fault => [⟨.error, m.haltNotice fault⟩]
  | _, _ => []

/-- What the log says of an action. -/
def entries : Action δ κ → List Entry
  | .load program =>
    match (m.load program).result with
    | .ok length =>
      [⟨.debug, "Initialized at " ++ Hexadecimal.literal 3 0x200⟩,
        ⟨.debug, "Loaded program of " ++ toString length ++ " bytes"⟩]
    | .error _ => []
  | .start address =>
    [⟨.debug, "Initialized at " ++ Hexadecimal.literal 3 address.toNat⟩]
  | .step =>
    m.announcements ++ m.waitEntries ++ m.soundEntries ++ m.keyEntries ++ m.haltEntries
  | .tick elapsed =>
    if 0 < m.timers.sound ∧ (m.tick elapsed).state.timers.sound = 0 then
      [⟨.debug, "Sound timer expired"⟩]
    else []
  | _ => []

def account (m : Machine δ κ) : List (Action δ κ) → List Entry
  | [] => []
  | a :: history => m.entries a ++ (m.act a).account history

def records : Action δ κ → List Record
  | .load program => (m.load program).log
  | .start address => (m.start address).log
  | .step => m.step.log
  | .tick elapsed => (m.tick elapsed).log
  | _ => []

def logIn (m : Machine δ κ) : List (Action δ κ) → List Record
  | [] => []
  | a :: history => m.records a ++ (m.act a).logIn history

end Entries

section Words

variable {m : Machine δ κ} {i : Instruction} {fault : Fault} {w : Word}

theorem nextWord?_eq_some_iff :
    m.nextWord? = some w ↔ m.mode = .running ∧ m.memory.readWord m.registers.pc = .ok w
      ∧ (Instruction.decode? w).isSome = true := by
  unfold nextWord?
  rcases m.mode with _ | _ | x | f <;> rcases m.memory.readWord m.registers.pc with f | w' <;> simp
  · constructor
    · rintro ⟨hd, rfl⟩
      exact ⟨rfl, hd⟩
    · rintro ⟨rfl, hd⟩
      exact ⟨hd, rfl⟩

theorem nextWord?_of_not_running (h : m.mode ≠ .running) : m.nextWord? = none :=
  Option.eq_none_iff_forall_ne_some.2 fun _ hw => h (nextWord?_eq_some_iff.1 hw).1

theorem nextWord?_of_fetch_error (h : m.fetch = .error fault) : m.nextWord? = none := by
  refine Option.eq_none_iff_forall_ne_some.2 fun w hw => ?_
  obtain ⟨-, hr, hd⟩ := nextWord?_eq_some_iff.1 hw
  obtain ⟨i, hi⟩ := Option.isSome_iff_exists.1 hd
  simp only [fetch, hr, bind, Except.bind, hi] at h
  cases h

theorem nextWord?_of_fetch (hm : m.mode = .running) (h : m.fetch = .ok i) :
    ∃ w, m.nextWord? = some w ∧ Instruction.decode? w = some i := by
  rcases hr : m.memory.readWord m.registers.pc with f | w
  · simp only [fetch, hr, bind, Except.bind] at h
    cases h
  · refine ⟨w, nextWord?_eq_some_iff.2 ⟨hm, hr, ?_⟩, ?_⟩ <;>
      rcases hd : Instruction.decode? w with _ | i' <;>
      simp only [fetch, hr, bind, Except.bind, hd] at h <;> cases h <;> rfl

theorem toList_v (r : Registers) : r.v.toList = (List.finRange 16).map r.get := by
  refine List.ext_getElem (by simp) fun k hk _ => ?_
  simp [Registers.get]

theorem entry_executing (h : Instruction.decode? w = some i) :
    (Record.executing m.registers.pc i m.registers.v m.registers.index).entry
      = ⟨.trace, m.announcement w⟩ := by
  have hlisting : w.listing = i.text := by
    rw [Word.listing, Line.ofWord, h]
    rfl
  have hvalues : Record.registersText m.registers.v
      = "[" ++ String.intercalate ", "
        ((List.finRange 16).map fun x => Hexadecimal.bare 2 (m.registers.get x).toNat) ++ "]" := by
    rw [Record.registersText, toList_v, List.map_map]
    rfl
  have htext : (Record.executing m.registers.pc i m.registers.v m.registers.index).text
      = m.announcement w := by
    rw [announcement, hlisting, ← hvalues]
    rfl
  exact congrArg (Entry.mk .trace) htext

theorem soundEntries_of_word (hw : m.nextWord? = some w) (hd : Instruction.decode? w = some i) :
    m.soundEntries = match i with
      | .setSound x =>
        if 0 < m.registers.get x then
          [⟨.debug, "Sound on for " ++ toString (m.registers.get x).toNat ++ " ticks"⟩]
        else []
      | _ => [] := by
  have hnext : m.nextWord?.bind Instruction.decode? = some i := by rw [hw]; exact hd
  unfold soundEntries
  rw [hnext]
  cases i <;> rfl

end Words

section Steps

variable [Display δ] [Keypad κ] {m : Machine δ κ} {i : Instruction} {fault : Fault}

omit [Display δ] [Keypad κ] in
theorem soundEntries_of_none (h : m.nextWord? = none) : m.soundEntries = [] := by
  rw [soundEntries, h]
  rfl

/-- What is said of a step that comes to no instruction. -/
theorem entries_of_none (h : m.nextWord? = none) :
    m.entries .step = m.waitEntries ++ m.keyEntries ++ m.haltEntries := by
  rw [entries, announcements, h, soundEntries_of_none h, List.append_nil]
  rfl

theorem entries_of_refused (hm : m.mode ≠ .running) (hw : ∀ x, m.mode ≠ .waiting x) :
    m.step.log.map Record.entry = m.entries .step := by
  rw [entries_of_none (nextWord?_of_not_running hm)]
  rcases hmode : m.mode with _ | _ | x | f
  · simp only [waitEntries, keyEntries, haltEntries, step_of_idle hmode, hmode]
    rfl
  · exact absurd hmode hm
  · exact absurd hmode (hw x)
  · simp only [waitEntries, keyEntries, haltEntries, step_of_halted hmode, hmode]
    rfl

theorem entries_of_waiting {x : Register} (hm : m.mode = .waiting x) :
    m.step.log.map Record.entry = m.entries .step := by
  have hnext : m.nextWord? = none := nextWord?_of_not_running (by rw [hm]; nofun)
  simp only [entries_of_none hnext, waitEntries, keyEntries, haltEntries, step_of_waiting hm, hm]
  rcases hk : Keypad.takePress m.polled.keypad with ⟨_ | key, keypad⟩ <;>
    simp only [awaitKey, hk] <;> rfl

theorem entries_of_unfetched (hm : m.mode = .running) (hf : m.fetch = .error fault) :
    m.step.log.map Record.entry = m.entries .step := by
  have hstep : m.step = m.polled.halt fault := by
    rw [step_of_running hm, cycle, show m.polled.fetch = .error fault from hf]
  simp only [entries_of_none (nextWord?_of_fetch_error hf), waitEntries, keyEntries, haltEntries,
    hstep, halt, hm]
  rfl

theorem entries_of_fault {w : Word} (hm : m.mode = .running) (hw : m.nextWord? = some w)
    (hd : Instruction.decode? w = some i) (hf : m.fetch = .ok i)
    (he : i.execute m.polled = .error fault) :
    m.step.log.map Record.entry = m.entries .step := by
  have hstep : m.step = { m.polled.halt fault with
      log := [.executing m.registers.pc i m.registers.v m.registers.index,
        .halting m.registers.pc fault] } := by
    rw [step_of_running hm]
    simp only [cycle, show m.polled.fetch = .ok i from hf, he]
    rfl
  have hsound : m.soundEntries = [] := by
    rw [soundEntries_of_word hw hd]
    cases i with
    | setSound x => cases he
    | _ => rfl
  simp only [entries, announcements, waitEntries, keyEntries, haltEntries, hw, hsound, hstep, halt,
    hm, List.map_cons, entry_executing hd]
  rfl

theorem entries_of_executed {w : Word} {next : Machine δ κ} (hm : m.mode = .running)
    (hw : m.nextWord? = some w) (hd : Instruction.decode? w = some i) (hf : m.fetch = .ok i)
    (he : i.execute m.polled = .ok next) :
    m.step.log.map Record.entry = m.entries .step := by
  have hstep : m.step = ⟨next, .ok .executed,
      .executing m.registers.pc i m.registers.v m.registers.index :: i.remarks m.registers⟩ := by
    rw [step_of_running hm]
    simp only [cycle, show m.polled.fetch = .ok i from hf, he]
    rfl
  have hmode : next.mode = i.modeAfter m.polled :=
    (Instruction.follows_of_execute (m := m.polled) (fetch_eq_ok_iff.1 hf).1 he).mode
  have hrunning : m.polled.mode = .running := hm
  simp only [entries, announcements, waitEntries, keyEntries, haltEntries, hw, hstep, hm,
    List.map_cons, entry_executing hd, hmode, soundEntries_of_word hw hd]
  cases i with
  | waitForKey x => rfl
  | setSound x =>
    simp only [Instruction.remarks, Instruction.modeAfter, hrunning]
    by_cases hx : 0 < m.registers.get x <;> simp only [hx, if_true, if_false] <;> rfl
  | _ =>
    simp only [Instruction.modeAfter, hrunning]
    rfl

theorem step_entries (m : Machine δ κ) : m.step.log.map Record.entry = m.entries .step := by
  rcases hm : m.mode with _ | _ | x | f
  · exact entries_of_refused (by rw [hm]; nofun) (by rw [hm]; nofun)
  · rcases hf : m.fetch with f | i
    · exact entries_of_unfetched hm hf
    · obtain ⟨w, hw, hd⟩ := nextWord?_of_fetch hm hf
      rcases he : i.execute m.polled with f | next
      · exact entries_of_fault hm hw hd hf he
      · exact entries_of_executed hm hw hd hf he
  · exact entries_of_waiting hm
  · exact entries_of_refused (by rw [hm]; nofun) (by rw [hm]; nofun)

theorem receivedKey_notMem_remarks (i : Instruction) (r : Registers) (key : Key) :
    .receivedKey key ∉ i.remarks r := by
  cases i with
  | waitForKey x => simp [Instruction.remarks]
  | setSound x =>
    by_cases hx : 0 < r.get x <;> simp [Instruction.remarks, hx]
  | _ => simp [Instruction.remarks]

/-- The key that a step reports is the one that it returns. -/
theorem receivedKey_mem_iff (m : Machine δ κ) (key : Key) :
    .receivedKey key ∈ m.step.log ↔ m.step.result = .ok (.received key) := by
  rcases hm : m.mode with _ | _ | x | f
  · rw [step_of_idle hm]
    simp
  · have hresult : m.polled.cycle.result ≠ .ok (.received key) := by
      rw [cycle_result]
      split <;> simp
    rw [step_of_running hm]
    refine iff_of_false ?_ hresult
    rcases hf : m.polled.fetch with f | i
    · simp [cycle, hf, halt]
    · rcases he : i.execute m.polled with f | next
      · simp [cycle, hf, he, halt]
      · simpa [cycle, hf, he] using receivedKey_notMem_remarks i _ key
  · rw [step_of_waiting hm]
    rcases hk : Keypad.takePress m.polled.keypad with ⟨_ | pressed, keypad⟩
    · simp [awaitKey, hk]
    · simp [awaitKey, hk, eq_comm]
  · rw [step_of_halted hm]
    simp

end Steps

section Runs

variable [Display δ] [Keypad κ]

theorem tick_entries (m : Machine δ κ) (elapsed : Nat) :
    (m.tick elapsed).log.map Record.entry = m.entries (.tick elapsed) := by
  have hoff : (m.timers.advance elapsed).soundActive = false
      ↔ (m.tick elapsed).state.timers.sound = 0 := by
    rw [Timers.soundActive, decide_eq_false_iff_not, UInt8.not_lt, UInt8.le_zero_iff]
    rfl
  have hon : m.timers.soundActive = true ↔ 0 < m.timers.sound := decide_eq_true_iff
  simp only [entries, ← hoff, ← hon]
  rcases ha : m.timers.soundActive <;> rcases hb : (m.timers.advance elapsed).soundActive <;>
    simp only [tick, Timers.remarks, ha, hb] <;> rfl

theorem record_entries (m : Machine δ κ) (a : Action δ κ) :
    (m.records a).map Record.entry = m.entries a := by
  cases a with
  | load program =>
    simp only [records, entries]
    rcases Nat.lt_or_ge 3584 program.length with hlong | hfits
    · rw [m.load_of_long hlong]
      rfl
    · rw [m.load_of_fits hfits]
      rfl
  | start address => rfl
  | step => exact m.step_entries
  | tick elapsed => exact tick_entries m elapsed
  | _ => rfl

theorem logIn_entries (m : Machine δ κ) (history : List (Action δ κ)) :
    (m.logIn history).map Record.entry = m.account history := by
  induction history generalizing m with
  | nil => rfl
  | cons a history ih => rw [logIn, account, List.map_append, record_entries, ih]

theorem logIn_append (m : Machine δ κ) (history later : List (Action δ κ)) :
    m.logIn (history ++ later) = m.logIn history ++ (m.after history).logIn later := by
  induction history generalizing m with
  | nil => rfl
  | cons a history ih => rw [List.cons_append, logIn, logIn, ih, List.append_assoc, after_cons]

/-- What the log says of a step, kind by kind. -/
structure StepTold (m : Machine δ κ) : Prop where
  /-- A step begins with an announcement if there is an instruction, -/
  announced : ∀ w, m.mode = .running → m.memory.readWord m.registers.pc = .ok w →
    (Instruction.decode? w).isSome = true →
      ∃ rest, m.step.log.map Record.entry = ⟨.trace, m.announcement w⟩ :: rest
        ∧ ∀ e ∈ rest, e.level ≠ .trace
  /-- and announces nothing if there is none. -/
  announces : (∃ e ∈ m.step.log.map Record.entry, e.level = .trace) → m.mode = .running
    ∧ ∃ w, m.memory.readWord m.registers.pc = .ok w ∧ (Instruction.decode? w).isSome = true
  /-- A step that halts a running machine ends with a notice of that, -/
  halted : ∀ fault, m.mode = .running → m.step.state.mode = .halted fault →
    m.step.result = .error fault ∧ m.step.state.registers.pc = m.registers.pc
      ∧ ∃ front, m.step.log.map Record.entry = front ++ [⟨.error, m.haltNotice fault⟩]
        ∧ ∀ e ∈ front, e.level ≠ .error
  /-- and no other step has one. -/
  halts : (∃ e ∈ m.step.log.map Record.entry, e.level = .error) → m.mode = .running
    ∧ ∃ fault, m.step.state.mode = .halted fault
  received : ∀ key, .receivedKey key ∈ m.step.log ↔ m.step.result = .ok (.received key)
  silent : m.mode = .idle ∨ (∃ fault, m.mode = .halted fault) → m.step.log = []

section Levels

variable {m : Machine δ κ} {e : Entry}

omit [Display δ] [Keypad κ] in
theorem mem_announcements (h : e ∈ m.announcements) :
    ∃ w, m.nextWord? = some w ∧ e = ⟨.trace, m.announcement w⟩ := by
  obtain ⟨w, hw, he⟩ := Option.map_eq_some_iff.1 (Option.mem_toList.1 h)
  exact ⟨w, hw, he.symm⟩

/-- What a step reports between its announcement and a halt. -/
theorem level_of_note (h : e ∈ m.waitEntries ++ m.soundEntries ++ m.keyEntries) :
    e.level = .debug := by
  rcases List.mem_append.1 h with h | h
  · rcases List.mem_append.1 h with h | h
    · unfold waitEntries at h
      split at h <;> simp at h
      rw [h]
    · unfold soundEntries at h
      split at h
      · split_ifs at h <;> simp at h
        rw [h]
      · simp at h
  · unfold keyEntries at h
    split at h <;> simp at h
    rw [h]

theorem mem_haltEntries (h : e ∈ m.haltEntries) :
    m.mode = .running ∧ ∃ fault, m.step.state.mode = .halted fault
      ∧ e = ⟨.error, m.haltNotice fault⟩ := by
  unfold haltEntries at h
  split at h
  · rename_i hm hh
    exact ⟨hm, _, hh, List.mem_singleton.1 h⟩
  · cases h

theorem step_entries_eq (m : Machine δ κ) :
    m.step.log.map Record.entry = m.announcements
      ++ (m.waitEntries ++ m.soundEntries ++ m.keyEntries) ++ m.haltEntries := by
  rw [step_entries, entries]
  simp only [List.append_assoc]

theorem entry_cases (h : e ∈ m.step.log.map Record.entry) :
    (∃ w, m.nextWord? = some w ∧ e = ⟨.trace, m.announcement w⟩) ∨ e.level = .debug
      ∨ m.mode = .running ∧ ∃ fault, m.step.state.mode = .halted fault
        ∧ e = ⟨.error, m.haltNotice fault⟩ := by
  rw [step_entries_eq] at h
  rcases List.mem_append.1 h with h | h
  · exact (List.mem_append.1 h).imp mem_announcements fun h => .inl (level_of_note h)
  · exact .inr (.inr (mem_haltEntries h))

end Levels

/-- A running machine comes to a halt with the fault that it returns, where it is. -/
theorem step_of_halting {m : Machine δ κ} {fault : Fault} (hm : m.mode = .running)
    (hh : m.step.state.mode = .halted fault) :
    m.step.result = .error fault ∧ m.step.state.registers.pc = m.registers.pc := by
  have hs := m.steps_step
  generalize m.step.state = next, m.step.result = result at hh hs ⊢
  cases hs with
  | failed _ _ =>
    cases hh
    exact ⟨rfl, rfl⟩
  | @executed i _ _ hf ho hrow =>
    rw [hrow.mode] at hh
    have hrunning : m.polled.mode = .running := hm
    cases i <;> simp [Instruction.modeAfter, hrunning] at hh
  | idle h | halted h | waited h _ | received h _ => cases hm.symm.trans h

theorem stepTold (m : Machine δ κ) : m.StepTold where
  announced w hm hr hd := by
    have hann : m.announcements = [⟨.trace, m.announcement w⟩] := by
      rw [announcements, nextWord?_eq_some_iff.2 ⟨hm, hr, hd⟩]
      rfl
    rw [step_entries_eq, hann, List.append_assoc]
    refine ⟨_, List.singleton_append, fun e he => ?_⟩
    rcases List.mem_append.1 he with he | he
    · rw [level_of_note he]
      decide
    · obtain ⟨-, fault, -, rfl⟩ := mem_haltEntries he
      simp
  announces := by
    rintro ⟨e, he, hlevel⟩
    rcases entry_cases he with ⟨w, hw, -⟩ | hdebug | ⟨-, fault, -, rfl⟩
    · obtain ⟨hm, hr, hd⟩ := nextWord?_eq_some_iff.1 hw
      exact ⟨hm, w, hr, hd⟩
    · cases hdebug.symm.trans hlevel
    · cases hlevel
  halted fault hm hh := by
    have hhalt : m.haltEntries = [⟨.error, m.haltNotice fault⟩] := by
      simp only [haltEntries, hm, hh]
    obtain ⟨hr, hpc⟩ := step_of_halting hm hh
    refine ⟨hr, hpc, _, by rw [step_entries_eq, hhalt], fun e he => ?_⟩
    rcases List.mem_append.1 he with he | he
    · obtain ⟨w, -, rfl⟩ := mem_announcements he
      simp
    · rw [level_of_note he]
      decide
  halts := by
    rintro ⟨e, he, hlevel⟩
    rcases entry_cases he with ⟨w, -, rfl⟩ | hdebug | ⟨hm, fault, hh, -⟩
    · cases hlevel
    · cases hdebug.symm.trans hlevel
    · exact ⟨hm, fault, hh⟩
  received := m.receivedKey_mem_iff
  silent := by
    rintro (hm | ⟨fault, hm⟩)
    · rw [step_of_idle hm]
    · rw [step_of_halted hm]

/-- The log of a run is the account of it, in which numbers are spelled by their digits. What it
says at any moment is told by the state of the machine then: by the instruction that it comes to, by
whether it halts, by the key that it returns, and by whether a tone ends. -/
theorem log_is_account (m : Machine δ κ) (history : List (Action δ κ)) :
    (m.logIn history).map Record.entry = m.account history
      ∧ (∀ width n, Hexadecimal.Spells (Hexadecimal.bare width n).toList width n)
      ∧ ∀ early a later, history = early ++ a :: later →
        let s := m.after early
        m.logIn history = m.logIn early ++ s.records a ++ (s.act a).logIn later
          ∧ (a = .step → s.StepTold)
          ∧ ∀ elapsed, a = .tick elapsed → (s.records a).map Record.entry
            = if 0 < s.timers.sound ∧ (s.act a).timers.sound = 0 then
                [⟨.debug, "Sound timer expired"⟩]
              else [] := by
  refine ⟨m.logIn_entries history, Hexadecimal.spells_bare, ?_⟩
  rintro early a later rfl s
  refine ⟨?_, fun _ => s.stepTold, ?_⟩
  · rw [logIn_append, logIn, List.append_assoc]
  · rintro elapsed rfl
    exact s.record_entries (.tick elapsed)

/-- A return from nowhere is announced although it fails. The machine has halted then, and the next
step reports nothing. Before that, a tone of 42 ticks ends within a second. -/
theorem log_is_account_halting :
    let m := headless [0x60, 0x2A, 0xF0, 0x18, 0x00, 0xEE]
    let early : List (Action Headless WiredKeypad) := [.step, .step]
    let history := early ++ .tick 1000000000 :: [.step, .step]
    let tone := m.after early
    let last := m.after (early ++ [.tick 1000000000])
    (tone.records (.tick 1000000000)).map Record.entry = [⟨.debug, "Sound timer expired"⟩]
      ∧ (∃ rest, last.step.log.map Record.entry = ⟨.trace, last.announcement 0x00EE⟩ :: rest)
      ∧ (∃ front, last.step.log.map Record.entry
        = front ++ [⟨.error, last.haltNotice .stackUnderflow⟩])
      ∧ last.step.state.step.log = []
      ∧ (m.logIn history).map Record.entry = m.account history := by
  intro m early history tone last
  obtain ⟨haccount, -, hat⟩ := log_is_account m history
  obtain ⟨-, -, htick⟩ := hat early (.tick 1000000000) [.step, .step] rfl
  obtain ⟨-, hstep, -⟩ := hat (early ++ [.tick 1000000000]) .step [.step] rfl
  obtain ⟨-, hnext, -⟩ := hat (early ++ [.tick 1000000000, .step]) .step [] rfl
  have hm : last.mode = .running := by decide +kernel
  have hh : last.step.state.mode = .halted .stackUnderflow := by decide +kernel
  obtain ⟨rest, hrest, -⟩ := (hstep rfl).announced 0x00EE hm (by decide +kernel) (by decide +kernel)
  obtain ⟨-, -, front, hfront, -⟩ := (hstep rfl).halted .stackUnderflow hm hh
  refine ⟨(htick 1000000000 rfl).trans (if_pos (by decide +kernel)), ⟨rest, hrest⟩,
    ⟨front, hfront⟩, (hnext rfl).silent (.inr ⟨_, hh⟩), haccount⟩

end Runs

end Machine

end Chip8
