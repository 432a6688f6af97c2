import Slurmpp.Backfill.Reservation
import Slurmpp.Controller.Workload
import Slurmpp.Gang.Safety
import Slurmpp.Slurmctld.LockSafety
import Slurmpp.Depend.Restart
import Slurmpp.Common.StepLayout
import Slurmpp.Hostlist.Find
import Slurmpp.Hostlist.Iterate
import Slurmpp.Common.JobCores
import Slurmpp.Common.CpuArray
import Slurmpp.Common.StepLayoutPack
import Slurmpp.Common.JobResourcesPack
import Slurmpp.Common.ForwardTree
import Slurmpp.Slurmctld.StepPartial
import Slurmpp.Slurmctld.StepMarks
import Slurmpp.Slurmctld.AcctPolicy
import Slurmpp.Slurmctld.Resv.JobTest
import Slurmpp.Slurmctld.Resv.Update
import Slurmpp.Common.GresRun
import Slurmpp.Slurmctld.AgentRetry
import Slurmpp.Slurmctld.NodeIdle
import Slurmpp.Slurmd.StepTree
import Slurmpp.Controller.Attempt
import Slurmpp.Common.BitRotate
import Slurmpp.Topology.Tree
