import Webernetes.ClockRuns
import Webernetes.Etcd.PrefixRange
import Webernetes.Etcd.SingleOp
import Webernetes.Etcd.Nested
import Webernetes.Etcd.WithLock
import Webernetes.Go.ChannelRuns
import Webernetes.Go.RWMutex
import Webernetes.ClientGo.WorkQueue
import Webernetes.ClientGo.DelayingRuns
import Webernetes.ClientGo.FifoRuns
import Webernetes.Controller.Rolling
import Webernetes.Controller.Scale
import Webernetes.Storage.Allocatable
import Webernetes.Client.PodRuns
import Webernetes.Cluster.ApplyResource
import Webernetes.Apimachinery.LabelsRoundTrip
import Webernetes.Apimachinery.FieldSelectorRoundTrip
import Webernetes.Controller.ConsistencyRuns
import Webernetes.GarbageCollector.GraphRuns
import Webernetes.Kubelet.PlegRuns
import Webernetes.Kubelet.PodStatusCacheRuns
import Webernetes.Kubelet.PodConfigSources
import Webernetes.Images.KubeProxyRuns
import Webernetes.Client.MergePatch
import Webernetes.Cri.RemovalRuns
import Webernetes.Images.SchedulerRuns
import Webernetes.Controller.ControllerRefManager
import Webernetes.GarbageCollector.Alternates
import Webernetes.Kubelet.GracePeriod
import Webernetes.GarbageCollector.Orphan
import Webernetes.Controller.PodsToDelete
import Webernetes.Kubelet.MergePodStatus
import Webernetes.Kubelet.InitOrder
import Webernetes.Kuberuntime.GarbageCollect
import Webernetes.Etcd.Compaction
import Webernetes.Go.ParseInt
import Webernetes.Net.CidrAddresses
import Webernetes.Kuberuntime.CrashLoop
import Webernetes.Go.ContextRuns
import Webernetes.Cni.NodeAddresses
import Webernetes.Images.EndpointSlice
import Webernetes.Kubelet.ProbeWorkerRuns
import Webernetes.Controller.ProgressDeadline
import Webernetes.Util.NormalizedNames
import Webernetes.Lru
import Webernetes.Client.DeleteRuns
