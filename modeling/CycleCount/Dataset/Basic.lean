import CycleCount.Dataset.Layout
import CycleCount.Dataset.RunRecord

/-! A data set: the measurements of every configuration, in the order in which
the configurations were declared. -/

namespace CycleCount

structure Dataset where
  name : String
  axes : List String
  labels : List String
  records : List (Key × RunRecord)
deriving Repr

namespace Dataset

/-- The measurements of a configuration. Of two records with one key the later
counts. -/
def get? (dataset : Dataset) (key : Key) : Option RunRecord := dataset.records.reverse.lookup key

def axisIndex? (dataset : Dataset) (axis : String) : Option Nat := dataset.axes.idxOf? axis

def entries (dataset : Dataset) : List (Key × RunRecord) :=
  dataset.records.filterMap fun (key, _) => (dataset.get? key).map (key, ·)

def length (dataset : Dataset) : Nat := dataset.records.length

end Dataset
end CycleCount
