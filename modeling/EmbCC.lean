import EmbCC.LdFloat.Bytes
import EmbCC.Opt.Sccp
import EmbCC.Opt.CfgClean.Correct
import EmbCC.Opt.Lvn.Correct
import EmbCC.Libc.Malloc.Sizes
import EmbCC.Libc.Qsort
import EmbCC.Libc.Tsearch
import EmbCC.Link.GcLeast
import EmbCC.Link.MergeMap
import EmbCC.Link.Inflated
import EmbCC.Libc.Lock
import EmbCC.Opt.DivMagic.Narrow
import EmbCC.Rt.SoftfpArith
import EmbCC.Libc.Regex.Correct
import EmbCC.Arch.ParallelMove
import EmbCC.Arch.RvLi
import EmbCC.Opt.EdgeCopies
import EmbCC.Opt.DivMagic.Test
import EmbCC.Opt.DivMagic.PairCorrect
import EmbCC.Arch.Liveness
import EmbCC.Arch.Slots
import EmbCC.Opt.Copyprop
import EmbCC.Opt.Reassoc
import EmbCC.Opt.SwitchRange
import EmbCC.Opt.Brdom
import EmbCC.Opt.Gcse.Correct
import EmbCC.Arch.Graph.Refine
import EmbCC.Opt.Dse.Correct
import EmbCC.Sema.W128
import EmbCC.Opt.CopypropLocal
import EmbCC.Debug.Line
import EmbCC.Libc.Printf
import EmbCC.Libc.Time
import EmbCC.Libc.Utf8
