import Picat.Arith.EvalArith
import Picat.Arith.Gcd
import Picat.Arith.MulMod
import Picat.Arith.Pow
import Picat.Arith.Rounded
import Picat.Arith.Shift
import Picat.Domain.MultiplySound
import Picat.Domain.Unify
import Picat.Domain.Backtrack
import Picat.Domain.BinaryConstr
import Picat.Domain.ModCon
import Picat.Domain.Extremum
import Picat.Domain.Reachability
import Picat.Domain.Disjunctive
import Picat.Domain.DomainList
import Picat.Domain.PathConnection
import Picat.Domain.ScratchArc
import Picat.Domain.BvMacros
import Picat.Table.Consistent
import Picat.Event.NoLostWakeUp
import Picat.Event.StatusRun
import Picat.Event.Objects
import Picat.Event.Degree
import Picat.Tabling.Optimal
import Picat.Tabling.VariantRun
import Picat.Tabling.Subsume
import Picat.Tabling.CopyTerm
import Picat.Assert.ClauseRun
import Picat.Gc.PackTrail
import Picat.Order.Compare
import Picat.Sort.InsertOrdered
import Picat.Graph.Subcircuit
import Picat.Graph.AcyclicD
import Picat.Graph.Path
import Picat.Graph.Acyclic
import Picat.FlatZinc.Globals
import Picat.Smt.ConstrSteps
import Picat.Planner.BestPlan
import Picat.Token.Agree
import Picat.Token.BuildNumber
import Picat.Token.TermReading
import Picat.Global.SlidingSum
import Picat.Global.SeqPrecede
import Picat.Global.Lex
import Picat.Global.Cardinality
import Picat.Graph.ShortestPath
import Picat.Mip.Booleanize
import Picat.Smt.Optimize
import Picat.Boolean.DomBits
import Picat.Bv.BitVectors
