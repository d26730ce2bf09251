import ImageAudit.Inspection.Pool

/-! What a pool of workers reports. Whatever its decoders have read before, a worker reports on a
file what new decoders would, and at any time every file is in the queue, with one worker or
reported on. So in whatever order the workers take their steps, at the end there is one report on
each file that can be opened. -/
namespace ImageAudit

/-- What a decoder has read before does not matter to what it makes of a file. -/
theorem Tiff.Decoder.process_eq_new (d : Decoder) (source : Source) :
    d.process source = (new d.settings).process source := rfl

theorem Jpeg.Decoder.process_eq_new (d : Decoder) (source : Source) :
    d.process source = (new d.settings d.embedded).process source := rfl

theorem Tiff.Decoder.settings_process (d : Decoder) (source : Source) :
    (d.process source).settings = d.settings := by
  simp only [process]
  split
  · rfl
  · split <;> rfl

theorem Jpeg.Decoder.settings_process (d : Decoder) (source : Source) :
    (d.process source).settings = d.settings ∧ (d.process source).embedded = d.embedded := by
  simp only [process]
  split <;> exact ⟨rfl, rfl⟩

namespace Decoders

structure Ready (settings : Settings) (d : Decoders) : Prop where
  tiff : d.tiff.settings = settings
  jpeg : d.jpeg.settings = settings
  alone : d.jpeg.embedded = false

variable {settings : Settings} {d : Decoders} {opener : Opener} {path : String}

theorem ready_new (settings : Settings) : (new settings).Ready settings := ⟨rfl, rfl, rfl⟩

/-- A report does not depend on what was read before. -/
theorem Ready.inspect_eq (h : d.Ready settings) (source : Source) :
    (d.inspect source).1 = ((new settings).inspect source).1 := by
  have htiff : d.tiff.process source = (new settings).tiff.process source := by
    rw [d.tiff.process_eq_new, h.tiff]
    rfl
  have hjpeg : d.jpeg.process source = (new settings).jpeg.process source := by
    rw [d.jpeg.process_eq_new, h.jpeg, h.alone]
    rfl
  simp only [Decoders.inspect, htiff, hjpeg]
  split <;> rfl

theorem Ready.inspect (h : d.Ready settings) (source : Source) :
    (d.inspect source).2.Ready settings := by
  have htiff := (d.tiff.settings_process source).trans h.tiff
  obtain ⟨hjpeg, halone⟩ := d.jpeg.settings_process source
  simp only [Decoders.inspect]
  split
  · exact ⟨htiff, h.jpeg, h.alone⟩
  · exact ⟨htiff, hjpeg.trans h.jpeg, halone.trans h.alone⟩

theorem Ready.inspectFile_eq (h : d.Ready settings) :
    (d.inspectFile opener path).1 = ((new settings).inspectFile opener path).1 := by
  simp only [inspectFile]
  cases opener path with
  | error cause => rfl
  | ok source => exact congrArg Except.ok (h.inspect_eq source)

theorem Ready.inspectFile (h : d.Ready settings) :
    (d.inspectFile opener path).2.Ready settings := by
  simp only [Decoders.inspectFile]
  cases opener path with
  | error cause => exact h
  | ok source => exact h.inspect source

end Decoders

def freshReport? (opener : Opener) (settings : Settings) (path : String) : Option Report :=
  ((Decoders.new settings).inspectFile opener path).1.toOption

def dueReports (opener : Opener) (settings : Settings) (queue : List String) : List Report :=
  queue.filterMap (freshReport? opener settings)

variable {opener : Opener} {settings : Settings}

private theorem filterMap_cons_toList {α : Type} (f : α → Option Report) (a : α) (rest : List α) :
    (a :: rest).filterMap f = (f a).toList ++ rest.filterMap f := by
  rw [List.filterMap_cons]
  cases f a <;> rfl

theorem dueReports_cons (path : String) (queue : List String) :
    dueReports opener settings (path :: queue) =
      (freshReport? opener settings path).toList ++ dueReports opener settings queue :=
  filterMap_cons_toList _ path queue

def Task.isIdle : Task → Bool
  | idle => true
  | _ => false

namespace Worker

variable {w : Worker} {queue : List String}

def owed (opener : Opener) (settings : Settings) (w : Worker) : Option Report :=
  match w.task with
  | .idle => none
  | .taken path => freshReport? opener settings path
  | .done report => some report

/-- What the next step of a worker makes of the queue and of the worker, and what it sends. -/
def turn (opener : Opener) (w : Worker) (queue : List String) :
    List String × Worker × List Report :=
  match w.task, queue with
  | .idle, [] => ([], w, [])
  | .idle, path :: queue => (queue, { w with task := .taken path }, [])
  | .taken path, queue => (queue, w.decode opener path, [])
  | .done report, queue => (queue, { w with task := .idle }, [report])

theorem owed_decode (h : w.decoders.Ready settings) (path : String) :
    (w.decode opener path).owed opener settings = freshReport? opener settings path := by
  rw [freshReport?, ← h.inspectFile_eq, decode]
  split
  · next hinspect => rw [hinspect]; rfl
  · next hinspect => rw [hinspect]; rfl

theorem ready_turn (h : w.decoders.Ready settings) (queue : List String) :
    (w.turn opener queue).2.1.decoders.Ready settings := by
  unfold turn
  split
  · exact h
  · exact h
  · next path _ =>
    have hready : (w.decoders.inspectFile opener path).2.Ready settings := h.inspectFile
    rw [decode]
    split
    · next hinspect => rwa [hinspect] at hready
    · next hinspect => rwa [hinspect] at hready
  · exact h

/-- A step neither loses a report that is to come nor adds one. -/
theorem reports_turn (opener : Opener) (h : w.decoders.Ready settings) (queue : List String) :
    ((w.turn opener queue).2.2 ++ ((w.turn opener queue).2.1.owed opener settings).toList ++
        dueReports opener settings (w.turn opener queue).1) =
      (w.owed opener settings).toList ++ dueReports opener settings queue := by
  unfold turn
  split
  · next htask => simp [owed, htask]
  · next path queue htask => simp [owed, htask, dueReports_cons]
  · next path htask =>
    rw [owed_decode h]
    simp [owed, htask]
  · next report htask => simp [owed, htask]

end Worker

namespace Pool

def Finished (p : Pool) : Prop := p.queue = [] ∧ ∀ w ∈ p.workers, w.task.isIdle = true

/-- The reports that were received and those that are still to come. -/
def ledger (opener : Opener) (settings : Settings) (p : Pool) : List Report :=
  p.reports ++ (p.workers.filterMap (·.owed opener settings) ++ dueReports opener settings p.queue)

def Ready (settings : Settings) (p : Pool) : Prop := ∀ w ∈ p.workers, w.decoders.Ready settings

/-- A step is the turn of the worker that has the number. -/
theorem step_append (opener : Opener) (queue : List String) (before after : List Worker)
    (w : Worker) (reports : List Report) :
    step opener ⟨queue, before ++ w :: after, reports⟩ before.length =
      ⟨(w.turn opener queue).1, before ++ (w.turn opener queue).2.1 :: after,
        reports ++ (w.turn opener queue).2.2⟩ := by
  simp only [step, List.getElem?_append_right (Nat.le_refl _), Nat.sub_self,
    List.getElem?_cons_zero, Worker.turn]
  cases w.task with
  | idle => cases queue <;> simp
  | taken path => simp
  | done report => simp

/-- A step is the turn of a worker, or nothing happens. -/
theorem step_cases (opener : Opener) (p : Pool) (worker : Nat) :
    p.step opener worker = p ∨ ∃ before w after, p.workers = before ++ w :: after ∧
      p.step opener worker =
        ⟨(w.turn opener p.queue).1, before ++ (w.turn opener p.queue).2.1 :: after,
          p.reports ++ (w.turn opener p.queue).2.2⟩ := by
  by_cases hlt : worker < p.workers.length
  · right
    obtain ⟨queue, workers, reports⟩ := p
    obtain ⟨before, after, hworkers, hbefore, _⟩ :=
      @List.exists_of_set _ worker workers[worker] workers hlt
    refine ⟨before, _, after, hworkers, ?_⟩
    have hstep := step_append opener queue before after workers[worker] reports
    rwa [← hworkers, hbefore] at hstep
  · left
    rw [step, List.getElem?_eq_none (Nat.le_of_not_lt hlt)]

theorem Ready.step {p : Pool} (h : p.Ready settings) (worker : Nat) :
    (p.step opener worker).Ready settings := by
  obtain hsame | ⟨before, w, after, hworkers, hstep⟩ := step_cases opener p worker
  · rwa [hsame]
  · rw [Ready, hworkers, List.forall_mem_append, List.forall_mem_cons] at h
    rw [Ready, hstep, List.forall_mem_append, List.forall_mem_cons]
    exact ⟨h.1, Worker.ready_turn h.2.1 p.queue, h.2.2⟩

/-- A step may move a report, but it neither loses one nor adds one. -/
theorem ledger_step {p : Pool} (h : p.Ready settings) (worker : Nat) :
    ((p.step opener worker).ledger opener settings).Perm (p.ledger opener settings) := by
  obtain hsame | ⟨before, w, after, hworkers, hstep⟩ := step_cases opener p worker
  · rw [hsame]
  · have hready := h w (by rw [hworkers]; simp)
    have hturn := Worker.reports_turn opener hready p.queue
    -- The two ledgers have equal parts in another order, so the reports are counted.
    rw [List.perm_iff_count]
    intro report
    have hcount := congrArg (List.count report) hturn
    simp only [ledger, hstep, hworkers, List.filterMap_append, filterMap_cons_toList,
      List.count_append] at hcount ⊢
    omega

theorem length_step (opener : Opener) (p : Pool) (worker : Nat) :
    (p.step opener worker).workers.length = p.workers.length := by
  obtain hsame | ⟨before, w, after, hworkers, hstep⟩ := step_cases opener p worker
  · rw [hsame]
  · simp [hstep, hworkers]

theorem length_run (opener : Opener) (p : Pool) (schedule : List Nat) :
    (p.run opener schedule).workers.length = p.workers.length := by
  induction schedule generalizing p with
  | nil => rfl
  | cons worker rest ih => exact (ih (p.step opener worker)).trans (length_step opener p worker)

theorem run_append (opener : Opener) (p : Pool) (first second : List Nat) :
    p.run opener (first ++ second) = (p.run opener first).run opener second :=
  List.foldl_append

theorem ledger_run {p : Pool} (h : p.Ready settings) (schedule : List Nat) :
    ((p.run opener schedule).ledger opener settings).Perm (p.ledger opener settings) := by
  induction schedule generalizing p with
  | nil => exact .refl _
  | cons worker rest ih => exact (ih (h.step worker)).trans (ledger_step h worker)

/-- Numbers of workers that have no file, have one to read, and have one to report on. -/
structure Census where
  idle : Nat
  taken : Nat
  done : Nat

def census : List Worker → Census
  | [] => ⟨0, 0, 0⟩
  | w :: rest =>
    let c := census rest
    match w.task with
    | .idle => { c with idle := c.idle + 1 }
    | .taken _ => { c with taken := c.taken + 1 }
    | .done _ => { c with done := c.done + 1 }

theorem length_eq_census (workers : List Worker) :
    workers.length = (census workers).idle + (census workers).taken + (census workers).done := by
  induction workers with
  | nil => rfl
  | cons w rest ih =>
    rw [List.length_cons, ih, census]
    cases w.task <;> dsimp only <;> omega

/-- What comes of all workers taking one turn: those without a file take one while there are any,
those with one to read have read it, and those with one to report on have sent the report. -/
structure Round (queue queue' : List String) (workers workers' : List Worker) : Prop where
  length_eq : workers'.length = workers.length
  taken_eq : (census workers').taken = min (census workers).idle queue.length
  queue_eq : queue'.length + (census workers').taken = queue.length
  done_le : (census workers').done ≤ (census workers).taken

theorem Round.cons {w : Worker} {queue queue' : List String} {rest rest' : List Worker}
    (h : Round (w.turn opener queue).1 queue' rest rest') :
    Round queue queue' (w :: rest) ((w.turn opener queue).2.1 :: rest') := by
  obtain ⟨hlength, htaken, hqueue, hdone⟩ := h
  unfold Worker.turn at *
  cases htask : w.task with
  | idle =>
    cases queue with
    | nil =>
      simp only [htask] at hqueue htaken ⊢
      constructor <;> simp only [census, htask, List.length_cons, List.length_nil] at * <;> omega
    | cons path queue =>
      simp only [htask] at hqueue htaken ⊢
      constructor <;> simp only [census, htask, List.length_cons] at * <;> omega
  | taken path =>
    simp only [htask] at hqueue htaken ⊢
    rw [Worker.decode]
    split <;> constructor <;> simp only [census, htask, List.length_cons] at * <;> omega
  | done report =>
    simp only [htask] at hqueue htaken ⊢
    constructor <;> simp only [census, htask, List.length_cons] at * <;> omega

/-- In a round the workers take their turns one after another. -/
theorem exists_round (opener : Opener) (queue : List String) (before rest : List Worker)
    (reports : List Report) :
    ∃ queue' rest' reports', Round queue queue' rest rest' ∧
      run opener ⟨queue, before ++ rest, reports⟩ (List.range' before.length rest.length) =
        ⟨queue', before ++ rest', reports'⟩ := by
  induction rest generalizing queue before reports with
  | nil => exact ⟨queue, [], reports, ⟨rfl, (Nat.zero_min _).symm, rfl, Nat.le_refl _⟩, rfl⟩
  | cons w rest ih =>
    obtain ⟨queue', rest', reports', hround, hrun⟩ := ih (w.turn opener queue).1
      (before ++ [(w.turn opener queue).2.1]) (reports ++ (w.turn opener queue).2.2)
    refine ⟨queue', _, reports', hround.cons, ?_⟩
    rw [List.length_append, List.length_singleton, List.append_assoc, List.append_assoc] at hrun
    rw [List.length_cons, List.range'_succ, run, List.foldl_cons, step_append]
    exact hrun

theorem round_run (opener : Opener) (p : Pool) :
    Round p.queue (p.run opener (List.range p.workers.length)).queue p.workers
      (p.run opener (List.range p.workers.length)).workers := by
  obtain ⟨queue', workers', reports', hround, hrun⟩ :=
    exists_round opener p.queue [] p.workers p.reports
  have hsame : p.run opener (List.range p.workers.length) = ⟨queue', workers', reports'⟩ := by
    rw [List.range_eq_range']
    exact hrun
  rw [hsame]
  exact hround

def remaining (p : Pool) : Nat :=
  p.queue.length + (census p.workers).taken + (census p.workers).done

theorem isIdle_of_census {workers : List Worker}
    (h : (census workers).taken + (census workers).done = 0) :
    ∀ w ∈ workers, w.task.isIdle = true := by
  induction workers with
  | nil => exact fun w hw => absurd hw List.not_mem_nil
  | cons w rest ih =>
    rw [List.forall_mem_cons]
    cases htask : w.task with
    | idle =>
      simp only [census, htask] at h
      exact ⟨rfl, ih h⟩
    | taken path =>
      simp only [census, htask] at h
      omega
    | done report =>
      simp only [census, htask] at h
      omega

theorem finished_of_remaining {p : Pool} (h : p.remaining = 0) : p.Finished := by
  rw [remaining] at h
  exact ⟨List.length_eq_zero_iff.mp (by omega), isIdle_of_census (by omega)⟩

/-- In three rounds each worker gets through with a file, as long as there are enough of them. -/
theorem remaining_threeRounds (opener : Opener) (p : Pool) :
    let rounds := (List.replicate 3 (List.range p.workers.length)).flatten
    (p.run opener rounds).workers.length = p.workers.length ∧
      (p.run opener rounds).remaining + min p.workers.length p.remaining ≤ p.remaining := by
  intro rounds
  have hfirst := round_run opener p
  generalize hp : p.run opener (List.range p.workers.length) = q at hfirst
  have hsecond := round_run opener q
  generalize hq : q.run opener (List.range q.workers.length) = r at hsecond
  have hthird := round_run opener r
  generalize hr : r.run opener (List.range r.workers.length) = t at hthird
  have hall : p.run opener rounds = t := by
    rw [← hr, hsecond.length_eq, hfirst.length_eq, ← hq, hfirst.length_eq, ← hp, ← run_append,
      ← run_append]
    simp [rounds, List.replicate_succ]
  have hidle := length_eq_census p.workers
  rw [hall]
  refine ⟨hthird.length_eq.trans (hsecond.length_eq.trans hfirst.length_eq), ?_⟩
  obtain ⟨hlength, htaken, hqueue, hdone⟩ := hfirst
  obtain ⟨hlength', htaken', hqueue', hdone'⟩ := hsecond
  obtain ⟨hlength'', htaken'', hqueue'', hdone''⟩ := hthird
  -- A worker with a file sends its report in the first two rounds; one without takes a file in the
  -- first round, if there is one, and sends the report in the third.
  simp only [remaining]
  omega

/-- When the workers take turns, so many times three rounds are enough as it takes to give each file
that remains a worker. -/
theorem remaining_rounds {threads : Nat} (count : Nat) {p : Pool}
    (hthreads : p.workers.length = threads) (h : p.remaining ≤ count * threads) :
    (p.run opener (List.replicate (3 * count) (List.range threads)).flatten).remaining = 0 := by
  induction count generalizing p with
  | zero =>
    rw [Nat.zero_mul] at h
    exact Nat.le_zero.mp h
  | succ count ih =>
    obtain ⟨hlength, hless⟩ := remaining_threeRounds opener p
    rw [hthreads] at hlength hless
    rw [Nat.succ_mul] at h
    rw [Nat.mul_succ, Nat.add_comm, ← List.replicate_append_replicate, List.flatten_append,
      run_append]
    exact ih hlength (by omega)

/-- Where there is a worker, all files can be got through. -/
theorem exists_finished (opener : Opener) {p : Pool} (h : p.workers ≠ []) :
    ∃ rest, (p.run opener rest).Finished :=
  ⟨_, finished_of_remaining (remaining_rounds p.remaining rfl
    (Nat.le_mul_of_pos_right _ (List.length_pos_iff.mpr h)))⟩

theorem ledger_of_idle {p : Pool} (h : ∀ w ∈ p.workers, w.task.isIdle = true) :
    p.ledger opener settings = p.reports ++ dueReports opener settings p.queue := by
  have hnone : p.workers.filterMap (·.owed opener settings) = [] := by
    rw [List.filterMap_eq_nil_iff]
    intro w hw
    have hidle := h w hw
    cases htask : w.task with
    | idle => rw [Worker.owed, htask]
    | taken path =>
      rw [htask] at hidle
      cases hidle
    | done report =>
      rw [htask] at hidle
      cases hidle
  rw [ledger, hnone, List.nil_append]

/-- At the end all that were to come have been received, and no others. -/
theorem reports_run {p : Pool} (hidle : ∀ w ∈ p.workers, w.task.isIdle = true)
    (hready : p.Ready settings) (schedule : List Nat) (h : (p.run opener schedule).Finished) :
    (p.run opener schedule).reports.Perm (p.reports ++ dueReports opener settings p.queue) := by
  have hrun : ((p.run opener schedule).ledger opener settings).Perm _ := ledger_run hready schedule
  rw [ledger_of_idle h.2, ledger_of_idle hidle, h.1] at hrun
  rwa [show dueReports opener settings [] = [] from rfl, List.append_nil] at hrun

/-- Whatever the decoders of the workers have read before and in whatever order the workers take
their steps, when all files are through the reports are those of new decoders, one on each file of
the list that can be opened. No others are ever received, and from any state all files can be got
through. -/
theorem reports_perm_fresh (opener : Opener) (settings : Settings) (files : List String)
    (workers : List Worker) (schedule : List Nat) (hsome : workers ≠ [])
    (hworkers : ∀ w ∈ workers, w.task.isIdle = true ∧ w.decoders.Ready settings) :
    let p := run opener ⟨files, workers, []⟩ schedule
    let expected := files.filterMap (freshReport? opener settings)
    (p.Finished → p.reports.Perm expected) ∧ (∃ more, (p.reports ++ more).Perm expected) ∧
      ∃ rest, (p.run opener rest).Finished := by
  intro p expected
  have hidle : ∀ w ∈ workers, w.task.isIdle = true := fun w hw => (hworkers w hw).1
  have hready : Ready settings ⟨files, workers, []⟩ := fun w hw => (hworkers w hw).2
  refine ⟨reports_run hidle hready schedule, ?_, ?_⟩
  · have hstart : ledger opener settings ⟨files, workers, []⟩ = expected := ledger_of_idle hidle
    exact ⟨_, hstart ▸ ledger_run hready schedule⟩
  · apply exists_finished
    rw [← List.length_pos_iff, length_run]
    exact List.length_pos_iff.mpr hsome

def twoFiles : Opener
  | "whole" => .ok (.ofBytes "whole" ⟨#[0xFF, 0xD8, 0xFF, 0xD9]⟩)
  | "broken" => .ok (.ofBytes "broken" ⟨#[0xFF, 0xD8, 0xFF]⟩)
  | path => .error (.cannotOpen path "No such file or directory (os error 2)")

/-- Two workers, one of which has read the broken image before. -/
theorem reports_perm_fresh_twoFiles :
    let used := ((Decoders.new {}).inspectFile twoFiles "broken").2
    let files := ["whole", "missing", "broken", "whole"]
    let p := run twoFiles ⟨files, [⟨used, .idle⟩, .new {}], []⟩ [0, 1, 1, 1, 0, 1, 0, 1, 0, 0, 0]
    p.Finished ∧ p.reports.map (·.path) = ["whole", "broken", "whole"] ∧
      p.reports.Perm (files.filterMap (freshReport? twoFiles {})) := by
  intro used files p
  have hworkers : ∀ w ∈ [Worker.mk used .idle, .new {}],
      w.task.isIdle = true ∧ w.decoders.Ready {} := by
    rw [List.forall_mem_cons, List.forall_mem_singleton]
    exact ⟨⟨rfl, (Decoders.ready_new {}).inspectFile⟩, ⟨rfl, Decoders.ready_new {}⟩⟩
  have hfinished : p.Finished := ⟨by decide +kernel, by decide +kernel⟩
  exact ⟨hfinished, by decide +kernel,
    (reports_perm_fresh twoFiles {} files _ _ (List.cons_ne_nil _ _) hworkers).1 hfinished⟩

private theorem census_start (settings : Settings) (threads : Nat) :
    census (List.replicate threads (.new settings)) = ⟨threads, 0, 0⟩ := by
  induction threads with
  | zero => rfl
  | succ threads ih => rw [List.replicate_succ, census, ih]; rfl

/-- When the workers take turns they get through with all files. -/
theorem finished_roundRobin (opener : Opener) (settings : Settings) (files : List String)
    {threads : Nat} (h : 0 < threads) :
    ((start settings files threads).run opener (roundRobin files.length threads)).Finished := by
  have hremaining : (start settings files threads).remaining = files.length := by
    rw [remaining, start, census_start]
    rfl
  have henough : files.length ≤ ceilDiv files.length threads * threads :=
    (ceilDiv_le_iff h).mp (Nat.le_refl _)
  exact finished_of_remaining (remaining_rounds _ List.length_replicate (hremaining ▸ henough))

theorem inspectAll_perm_fresh (opener : Opener) (settings : Settings) (files : List String)
    (threads : Nat) :
    (inspectAll opener settings files threads).Perm
      (files.filterMap (freshReport? opener settings)) := by
  have hnew : ∀ w ∈ (start settings files (max 1 threads)).workers, w = .new settings :=
    fun w hw => List.eq_of_mem_replicate hw
  refine reports_run (fun w hw => ?_) (fun w hw => ?_) _
    (finished_roundRobin opener settings files (Nat.le_max_left 1 threads))
  · rw [hnew w hw]
    rfl
  · rw [hnew w hw]
    exact Decoders.ready_new settings

end Pool
end ImageAudit
