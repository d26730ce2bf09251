import ImageAudit.Bytes.Arithmetic
import ImageAudit.Inspection.Decoders

/-! A pool of workers that share a queue of files. Every worker takes a file, has its own decoders
inspect it and sends the report; the workers' steps may be interleaved in any way. A file that
cannot be opened gets no report. -/
namespace ImageAudit

abbrev Opener := (path : String) → Except ReadError Source

inductive Task where
  | idle
  | taken (path : String)
  | done (report : Report)

structure Worker where
  decoders : Decoders
  task : Task

structure Pool where
  queue : List String
  workers : List Worker
  /-- The reports that were received, in the order of their arrival. -/
  reports : List Report

namespace Decoders

def inspectFile (d : Decoders) (opener : Opener) (path : String) :
    Except ReadError Report × Decoders :=
  match opener path with
  | .error cause => (.error cause, d)
  | .ok source =>
    let (report, d) := d.inspect source
    (.ok report, d)

end Decoders

namespace Worker

def new (settings : Settings) : Worker := ⟨.new settings, .idle⟩

def decode (w : Worker) (opener : Opener) (path : String) : Worker :=
  match w.decoders.inspectFile opener path with
  | (.error _, decoders) => ⟨decoders, .idle⟩
  | (.ok report, decoders) => ⟨decoders, .done report⟩

end Worker

namespace Pool

def start (settings : Settings) (files : List String) (threads : Nat) : Pool :=
  ⟨files, List.replicate threads (.new settings), []⟩

def step (opener : Opener) (p : Pool) (worker : Nat) : Pool :=
  match p.workers[worker]? with
  | none => p
  | some w =>
    match w.task, p.queue with
    | .idle, [] => p
    | .idle, path :: queue =>
      { p with queue, workers := p.workers.set worker { w with task := .taken path } }
    | .taken path, _ => { p with workers := p.workers.set worker (w.decode opener path) }
    | .done report, _ =>
      { p with
        workers := p.workers.set worker { w with task := .idle }
        reports := p.reports ++ [report] }

def run (opener : Opener) (p : Pool) (schedule : List Nat) : Pool := schedule.foldl (step opener) p

/-- Number of workers for so many files: as many as wanted, but no more than files and at least
one. -/
def threadCount (wanted files : Nat) : Nat := max 1 (min wanted files)

def roundRobin (files threads : Nat) : List Nat :=
  (List.replicate (3 * ceilDiv files threads) (List.range threads)).flatten

def inspectAll (opener : Opener) (settings : Settings) (files : List String) (threads : Nat) :
    List Report :=
  let threads := max 1 threads
  ((start settings files threads).run opener (roundRobin files.length threads)).reports

end Pool
end ImageAudit
